import CodeMemory.Lib.GoString
import CodeMemory.Lib.Table

/-! The durable job queue. Every call is one transaction; instants are nanoseconds and
the table holds milliseconds. A clock reading is taken before the transaction it is
used in, so it may be older than the moment of the transaction. -/

namespace CodeMemory.Gardener

open Lib Lib.GoString Lib.GoMap List

inductive JobStatus where
  | pending
  | leased
  | done
  | failed
  deriving DecidableEq

structure JobRow where
  kind : GoString
  generationID : GoString
  documentID : GoString
  payload : GoString
  status : JobStatus
  attempt : ℕ
  leaseOwner : GoString
  leaseUntil : Int
  createdAt : Int
  error : GoString
  deriving DecidableEq

/-- A job to enqueue; the payload is its JSON text. -/
structure Job where
  id : GoString
  kind : GoString
  generationID : GoString
  documentID : GoString
  payload : GoString

structure Receipt where
  jobID : GoString
  kind : GoString
  generationID : GoString
  documentID : GoString
  ok : Bool
  error : GoString
  output : GoString
  finishedAt : Int
  deriving DecidableEq

structure Queue where
  jobs : GoMap GoString JobRow
  receipts : GoMap GoString Receipt

def unixMilli (t : Int) : Int := t / 1000000

def enqueueOne (now : Int) (jobs : GoMap GoString JobRow) (j : Job) : GoMap GoString JobRow :=
  if trimSpace j.id = [] then jobs
  else Table.insertOrIgnore jobs j.id
    ⟨j.kind, j.generationID, j.documentID, j.payload, .pending, 0, [], 0, unixMilli now, []⟩

def Queue.enqueue (q : Queue) (jobs : List Job) (now : Int) : Queue :=
  { q with jobs := jobs.foldl (enqueueOne now) q.jobs }

def reclaim (nowMS : Int) (jobs : GoMap GoString JobRow) : GoMap GoString JobRow :=
  Table.update (fun _ row => row.status = .leased && 0 < row.leaseUntil && row.leaseUntil < nowMS)
    (fun row => { row with status := .pending, leaseOwner := [], leaseUntil := 0 }) jobs

/-- The possible results of the query for pending jobs. -/
def Picks (n : ℕ) (jobs : GoMap GoString JobRow) (picked : List GoString) : Prop :=
  Table.Selects (fun row => row.status = .pending) (·.createdAt) n jobs picked

instance (n : ℕ) (jobs : GoMap GoString JobRow) (picked : List GoString) : Decidable (Picks n jobs picked) :=
  inferInstanceAs (Decidable (Table.Selects _ _ n jobs picked))

def leaseJobs (worker : GoString) (leaseUntil : Int) (picked : List GoString) (jobs : GoMap GoString JobRow) :
    GoMap GoString JobRow :=
  Table.update (fun id row => id ∈ picked && row.status = .pending)
    (fun row =>
      { row with status := .leased, leaseOwner := worker, leaseUntil := leaseUntil, attempt := row.attempt + 1 })
    jobs

def defaultTTL : Int := 120 * 1000000000

def leaseEnd (leaseTTL now : Int) : Int := unixMilli (now + if leaseTTL ≤ 0 then defaultTTL else leaseTTL)

def Queue.claim (q : Queue) (leaseTTL : Int) (worker : GoString) (now : Int) (picked : List GoString) : Queue :=
  { q with jobs := leaseJobs worker (leaseEnd leaseTTL now) picked (reclaim (unixMilli now) q.jobs) }

def Queue.complete (q : Queue) (receipt : Receipt) (now : Int) : Queue where
  jobs := Table.update (fun id _ => id = receipt.jobID)
    (fun row => { row with
      status := if receipt.ok then .done else .failed
      leaseOwner := []
      leaseUntil := 0
      error := receipt.error }) q.jobs
  receipts := q.receipts.insert receipt.jobID
    { receipt with finishedAt := if unixMilli receipt.finishedAt = 0 then unixMilli now
      else unixMilli receipt.finishedAt }

structure Issue where
  worker : GoString
  job : GoString
  attempt : ℕ
  leaseUntil : Int
  deriving DecidableEq

/-- The queue with the time, the leases that were issued and those a `Complete` was called for. -/
structure System where
  queue : Queue
  opened : Int
  clock : Int
  issued : List Issue
  completed : List Issue

/-- A call, or the passing of time. A `Complete` is called by the worker of a lease, though the call does not say so. -/
inductive Event where
  | tick (t : Int)
  | enqueue (jobs : List Job) (now : Int)
  | claim (worker : GoString) (n : ℕ) (now : Int) (picked : List GoString)
  | complete (l : Issue) (receipt : Receipt) (now : Int)

def attemptOf (jobs : GoMap GoString JobRow) (id : GoString) : ℕ := ((jobs.lookup id).map (·.attempt)).getD 0

/-- A reading of the clock since the queue was opened. -/
def System.Read (s : System) (now : Int) : Prop := s.opened ≤ now ∧ now ≤ s.clock

instance (s : System) (now : Int) : Decidable (s.Read now) := by unfold System.Read; infer_instance

def System.issues (s : System) (leaseTTL : Int) (worker : GoString) (now : Int) (picked : List GoString) : List Issue :=
  picked.map fun id => ⟨worker, id, attemptOf s.queue.jobs id + 1, leaseEnd leaseTTL now⟩

/-- What cannot happen, a reading of another time or a result the query does not have, changes nothing. -/
def step (leaseTTL : Int) (s : System) : Event → System
  | .tick t => { s with clock := max s.clock t }
  | .enqueue jobs now => if s.Read now then { s with queue := s.queue.enqueue jobs now } else s
  | .claim worker n now picked =>
    if s.Read now ∧ Picks n (reclaim (unixMilli now) s.queue.jobs) picked then
      { s with
        queue := s.queue.claim leaseTTL worker now picked
        issued := s.issued ++ s.issues leaseTTL worker now picked }
    else s
  | .complete l receipt now =>
    if s.Read now then { s with queue := s.queue.complete receipt now, completed := l :: s.completed } else s

def run (leaseTTL : Int) (s : System) (es : List Event) : System := es.foldl (step leaseTTL) s

def openQueue (t : Int) : System := ⟨⟨∅, ∅⟩, t, t, [], []⟩

inductive Turn (leaseTTL : Int) (s : System) : Event → System → Prop
  | refused (e : Event) : Turn leaseTTL s e s
  | tick (t : Int) : Turn leaseTTL s (.tick t) { s with clock := max s.clock t }
  | enqueue (jobs : List Job) (now : Int) :
    Turn leaseTTL s (.enqueue jobs now) { s with queue := s.queue.enqueue jobs now }
  | claim (worker : GoString) (n : ℕ) (now : Int) (picked : List GoString) (read : s.Read now)
    (picks : Picks n (reclaim (unixMilli now) s.queue.jobs) picked) :
    Turn leaseTTL s (.claim worker n now picked)
      { s with
        queue := s.queue.claim leaseTTL worker now picked
        issued := s.issued ++ s.issues leaseTTL worker now picked }
  | complete (l : Issue) (receipt : Receipt) (now : Int) :
    Turn leaseTTL s (.complete l receipt now)
      { s with queue := s.queue.complete receipt now, completed := l :: s.completed }

theorem turn_step (leaseTTL : Int) (s : System) (e : Event) : Turn leaseTTL s e (step leaseTTL s e) := by
  cases e with
  | tick t => exact .tick t
  | enqueue jobs now =>
    dsimp only [step]
    split_ifs
    · exact .enqueue jobs now
    · exact .refused _
  | claim worker n now picked =>
    dsimp only [step]
    split_ifs with hok
    · exact .claim worker n now picked hok.1 hok.2
    · exact .refused _
  | complete l receipt now =>
    dsimp only [step]
    split_ifs
    · exact .complete l receipt now
    · exact .refused _

def System.Runs (s : System) (l : Issue) : Prop := unixMilli s.clock ≤ l.leaseUntil

def System.Current (s : System) (l : Issue) : Prop :=
  ∃ row, s.queue.jobs.lookup l.job = some row ∧ row.status = .leased ∧ row.leaseOwner = l.worker ∧
    row.attempt = l.attempt ∧ row.leaseUntil = l.leaseUntil

theorem unixMilli_mono {a b : Int} (h : a ≤ b) : unixMilli a ≤ unixMilli b := by
  unfold unixMilli
  omega

variable {now nowMS : Int} {jobs : GoMap GoString JobRow} {row row' : JobRow} {id : GoString} {receipt : Receipt}
  {e : Event} {es : List Event} {q : Queue} {worker : GoString} {n : ℕ} {picked : List GoString} {s : System}
  {leaseTTL : Int} {l : Issue} {t : System}

theorem leaseEnd_pos (leaseTTL : Int) (h : 1000000 ≤ now) : 0 < leaseEnd leaseTTL now := by
  unfold leaseEnd unixMilli defaultTTL
  split_ifs <;> omega

theorem lookup_enqueueOne {j : Job} (h : (enqueueOne now jobs j).lookup id = some row) :
    jobs.lookup id = some row ∨ jobs.lookup id = none ∧ row.status = .pending ∧ row.attempt = 0 := by
  unfold enqueueOne at h
  split_ifs at h
  · exact .inl h
  · rw [Table.lookup_insertOrIgnore] at h
    split_ifs at h
    · cases hid : jobs.lookup id with
      | none =>
        rw [hid, Option.none_or] at h
        cases h
        exact .inr ⟨rfl, rfl, rfl⟩
      | some row' =>
        rw [hid, Option.some_or] at h
        exact .inl h
    · exact .inl h

/-- A row that is there stays what it is when jobs are enqueued. -/
theorem lookup_enqueue_of_some (now : Int)
    (h : jobs.lookup id = some row) (js : List Job) : (js.foldl (enqueueOne now) jobs).lookup id = some row := by
  induction js generalizing jobs with
  | nil => exact h
  | cons j js ih =>
    refine ih ?_
    unfold enqueueOne
    split_ifs
    · exact h
    · rw [Table.lookup_insertOrIgnore, h]
      split_ifs <;> rfl

/-- A row after jobs were enqueued was there before, or is new and pending. -/
theorem lookup_enqueue (js : List Job) (h : (js.foldl (enqueueOne now) jobs).lookup id = some row) :
    jobs.lookup id = some row ∨ jobs.lookup id = none ∧ row.status = .pending ∧ row.attempt = 0 := by
  induction js generalizing jobs with
  | nil => exact .inl h
  | cons j js ih =>
    rcases ih h with hrow | ⟨hnone, hrow⟩
    · exact lookup_enqueueOne hrow
    · cases hid : jobs.lookup id with
      | none => exact .inr ⟨rfl, hrow⟩
      | some row' =>
        have hkept := lookup_enqueue_of_some now hid [j]
        rw [foldl_cons, foldl_nil, hnone] at hkept
        cases hkept

/-- The row of a job whose lease ran out at the reading `nowMS` is pending again; the others stay. -/
theorem lookup_reclaim (h : (reclaim nowMS jobs).lookup id = some row') :
    ∃ row, jobs.lookup id = some row ∧ row'.attempt = row.attempt ∧
      (row' = row ∨ row'.status = .pending ∧ row.status = .leased ∧ row.leaseUntil < nowMS) := by
  obtain ⟨row, hrow, hif⟩ := Table.lookup_update_eq_some.mp h
  refine ⟨row, hrow, ?_⟩
  split_ifs at hif with hexp
  · simp only [Bool.and_eq_true, decide_eq_true_eq] at hexp
    subst hif
    exact ⟨rfl, .inr ⟨rfl, hexp.1.1, hexp.2⟩⟩
  · exact ⟨by rw [hif], .inl hif.symm⟩

/-- A row after a claim: leased to the worker if it was picked, and as reclaiming left it otherwise. -/
def Claimed (leaseTTL now : Int) (worker : GoString) (picked : List GoString) (id : GoString)
    (row row' : JobRow) : Prop :=
  (id ∈ picked ∧ (row.status = .pending ∨ row.status = .leased ∧ row.leaseUntil < unixMilli now) ∧
      row'.status = .leased ∧ row'.leaseOwner = worker ∧ row'.leaseUntil = leaseEnd leaseTTL now ∧
      row'.attempt = row.attempt + 1) ∨
    (id ∉ picked ∧ row'.attempt = row.attempt ∧
      (row' = row ∨ row'.status = .pending ∧ row.status = .leased ∧ row.leaseUntil < unixMilli now))

theorem lookup_claim {leaseTTL : Int} (hpicks : Picks n (reclaim (unixMilli now) q.jobs) picked)
    (h : (q.claim leaseTTL worker now picked).jobs.lookup id = some row') :
    ∃ row, q.jobs.lookup id = some row ∧ Claimed leaseTTL now worker picked id row row' := by
  obtain ⟨mid, hmid, hif⟩ := Table.lookup_update_eq_some.mp h
  obtain ⟨row, hrow, hatt, hcases⟩ := lookup_reclaim hmid
  refine ⟨row, hrow, ?_⟩
  split_ifs at hif with hpick
  · simp only [Bool.and_eq_true, decide_eq_true_eq] at hpick
    subst hif
    refine .inl ⟨hpick.1, ?_, rfl, rfl, rfl, by rw [hatt]⟩
    rcases hcases with rfl | ⟨-, hleased, huntil⟩
    · exact .inl hpick.2
    · exact .inr ⟨hleased, huntil⟩
  · subst hif
    refine .inr ⟨fun hid => hpick ?_, hatt, hcases⟩
    obtain ⟨row₀, hrow₀, hpend⟩ := Table.mem_matching.mp (hpicks.2.1 id hid)
    rw [hmid] at hrow₀
    cases hrow₀
    rw [decide_eq_true hid, Bool.true_and]
    exact hpend

theorem exists_lookup_claim (leaseTTL : Int) (worker : GoString)
    (hpicks : Picks n (reclaim (unixMilli now) q.jobs) picked) (h : q.jobs.lookup id = some row) :
    ∃ row', (q.claim leaseTTL worker now picked).jobs.lookup id = some row' ∧
      Claimed leaseTTL now worker picked id row row' := by
  have hkeys : (q.claim leaseTTL worker now picked).jobs.keys = q.jobs.keys := by
    rw [Queue.claim, leaseJobs, Table.keys_update, reclaim, Table.keys_update]
  obtain ⟨row', hrow'⟩ := mem_keys_iff.mp (hkeys ▸ mem_keys_of_lookup h)
  obtain ⟨row₀, hrow₀, hcases⟩ := lookup_claim hpicks hrow'
  rw [h] at hrow₀
  cases hrow₀
  exact ⟨row', hrow', hcases⟩

theorem lookup_complete (h : (q.complete receipt now).jobs.lookup id = some row') :
    ∃ row, q.jobs.lookup id = some row ∧ row'.attempt = row.attempt ∧ ((id ≠ receipt.jobID ∧ row' = row) ∨
        (id = receipt.jobID ∧ row'.status = if receipt.ok then .done else .failed)) := by
  obtain ⟨row, hrow, hif⟩ := Table.lookup_update_eq_some.mp h
  refine ⟨row, hrow, ?_⟩
  by_cases hid : id = receipt.jobID
  · rw [if_pos (decide_eq_true hid)] at hif
    subst hif
    exact ⟨rfl, .inr ⟨hid, rfl⟩⟩
  · rw [if_neg (by simpa using hid)] at hif
    exact ⟨by rw [hif], .inl ⟨hid, hif.symm⟩⟩

theorem attemptOf_eq (h : jobs.lookup id = some row) : attemptOf jobs id = row.attempt := by
  rw [attemptOf, h]
  rfl

theorem Picks.exists_row
    (h : Picks n (reclaim nowMS jobs) picked) (hid : id ∈ picked) : ∃ row, jobs.lookup id = some row := by
  obtain ⟨row', hrow', -⟩ := Table.mem_matching.mp (h.2.1 id hid)
  obtain ⟨row, hrow, -⟩ := lookup_reclaim hrow'
  exact ⟨row, hrow⟩

/-- What the rows say of the leases that were issued, in every run. -/
structure Sound (s : System) : Prop where
  clock : s.opened ≤ s.clock
  rows : ∀ l ∈ s.issued, ∃ row, s.queue.jobs.lookup l.job = some row ∧ l.attempt ≤ row.attempt
  leased : ∀ id row, s.queue.jobs.lookup id = some row → row.status = .leased →
    (⟨row.leaseOwner, id, row.attempt, row.leaseUntil⟩ : Issue) ∈ s.issued
  running : ∀ l ∈ s.issued, s.Runs l → ∀ row, s.queue.jobs.lookup l.job = some row →
    row.attempt = l.attempt ∧ row.status ≠ .pending
  unique : ∀ l ∈ s.issued, ∀ l' ∈ s.issued, l.job = l'.job → l.attempt = l'.attempt → l = l'

theorem sound_openQueue (t : Int) : Sound (openQueue t) where
  clock := le_rfl
  rows := by simp [openQueue]
  leased := by simp [openQueue]
  running := by simp [openQueue]
  unique := by simp [openQueue]

/-- A lease that runs is not reclaimed at a reading of the clock. -/
theorem Sound.not_expired (h : Sound s) (hl : l ∈ s.issued) (hruns : s.Runs l)
    (hnow : now ≤ s.clock) (hrow : s.queue.jobs.lookup l.job = some row) (hleased : row.status = .leased) :
    ¬ row.leaseUntil < unixMilli now := by
  have heq : l = ⟨row.leaseOwner, l.job, row.attempt, row.leaseUntil⟩ :=
    h.unique l hl _ (h.leased l.job row hrow hleased) rfl (h.running l hl hruns row hrow).1.symm
  have huntil : l.leaseUntil = row.leaseUntil := congrArg Issue.leaseUntil heq
  have hmono := unixMilli_mono hnow
  unfold System.Runs at hruns
  omega

theorem mem_issues : l ∈ s.issues leaseTTL worker now picked ↔
      ∃ id ∈ picked, l = ⟨worker, id, attemptOf s.queue.jobs id + 1, leaseEnd leaseTTL now⟩ := by
  simp only [System.issues, mem_map, eq_comm]

theorem Sound.claim (h : Sound s) (hnow : s.Read now)
    (hpicks : Picks n (reclaim (unixMilli now) s.queue.jobs) picked) :
    Sound { s with
      queue := s.queue.claim leaseTTL worker now picked
      issued := s.issued ++ s.issues leaseTTL worker now picked } := by
  have hold_attempt : ∀ l ∈ s.issued, l.attempt ≤ attemptOf s.queue.jobs l.job := by
    intro l hl
    obtain ⟨row, hrow, hle⟩ := h.rows l hl
    rwa [attemptOf_eq hrow]
  refine ⟨h.clock, ?_, ?_, ?_, ?_⟩
  · intro l hl
    rcases mem_append.mp hl with hold | hnew
    · obtain ⟨row, hrow, hle⟩ := h.rows l hold
      obtain ⟨row', hrow', hcases⟩ := exists_lookup_claim leaseTTL worker hpicks hrow
      refine ⟨row', hrow', ?_⟩
      rcases hcases with ⟨-, -, -, -, -, hatt⟩ | ⟨-, hatt, -⟩ <;> omega
    · obtain ⟨id, hid, rfl⟩ := mem_issues.mp hnew
      obtain ⟨row, hrow⟩ := hpicks.exists_row hid
      obtain ⟨row', hrow', hcases⟩ := exists_lookup_claim leaseTTL worker hpicks hrow
      refine ⟨row', hrow', ?_⟩
      rcases hcases with ⟨-, -, -, -, -, hatt⟩ | ⟨hnot, -⟩
      · rw [hatt, attemptOf_eq hrow]
      · exact absurd hid hnot
  · intro id row' hrow' hleased
    obtain ⟨row, hrow, hcases⟩ := lookup_claim hpicks hrow'
    rcases hcases with ⟨hid, -, -, howner, huntil, hatt⟩ | ⟨-, -, rfl | ⟨hpend, -⟩⟩
    · refine mem_append_right _ (mem_issues.mpr ⟨id, hid, ?_⟩)
      rw [howner, huntil, hatt, attemptOf_eq hrow]
    · exact mem_append_left _ (h.leased id row' hrow hleased)
    · rw [hpend] at hleased
      cases hleased
  · intro l hl hruns row' hrow'
    obtain ⟨row, hrow, hcases⟩ := lookup_claim hpicks hrow'
    rcases mem_append.mp hl with hold | hnew
    · -- A job whose lease runs is neither pending nor reclaimed, so it was not picked.
      obtain ⟨hatt, hst⟩ := h.running l hold hruns row hrow
      have hkept : ¬ (row.status = .leased ∧ row.leaseUntil < unixMilli now) :=
        fun hexp => h.not_expired hold hruns hnow.2 hrow hexp.1 hexp.2
      rcases hcases with ⟨-, hpend | hexp, -⟩ | ⟨-, -, rfl | ⟨-, hexp⟩⟩
      · exact absurd hpend hst
      · exact absurd hexp hkept
      · exact ⟨hatt, hst⟩
      · exact absurd hexp hkept
    · obtain ⟨id, hid, rfl⟩ := mem_issues.mp hnew
      rcases hcases with ⟨-, -, hleased, -, -, hatt⟩ | ⟨hnot, -⟩
      · exact ⟨by rw [hatt, attemptOf_eq hrow], by rw [hleased]; decide⟩
      · exact absurd hid hnot
  · intro l hl l' hl' hjob hatt
    rcases mem_append.mp hl with hold | hnew <;> rcases mem_append.mp hl' with hold' | hnew'
    · exact h.unique l hold l' hold' hjob hatt
    · obtain ⟨id, hid, rfl⟩ := mem_issues.mp hnew'
      have hle := hold_attempt l hold
      rw [hjob] at hle
      dsimp only at hatt hle
      omega
    · obtain ⟨id, hid, rfl⟩ := mem_issues.mp hnew
      have hle := hold_attempt l' hold'
      rw [← hjob] at hle
      dsimp only at hatt hle
      omega
    · obtain ⟨id, hid, rfl⟩ := mem_issues.mp hnew
      obtain ⟨id', hid', rfl⟩ := mem_issues.mp hnew'
      dsimp only at hjob
      rw [hjob]

theorem Sound.enqueue (h : Sound s) (jobs : List Job) (now : Int) :
    Sound { s with queue := s.queue.enqueue jobs now } := by
  refine ⟨h.clock, ?_, ?_, ?_, h.unique⟩
  · intro l hl
    obtain ⟨row, hrow, hle⟩ := h.rows l hl
    exact ⟨row, lookup_enqueue_of_some now hrow jobs, hle⟩
  · intro id row hrow hleased
    rcases lookup_enqueue jobs hrow with hrow | ⟨-, hpend, -⟩
    · exact h.leased id row hrow hleased
    · rw [hpend] at hleased
      cases hleased
  · intro l hl hruns row hrow
    obtain ⟨row₀, hrow₀, -⟩ := h.rows l hl
    have hkept := lookup_enqueue_of_some now hrow₀ jobs
    have heq : row = row₀ := Option.some.inj (hrow.symm.trans hkept)
    exact h.running l hl hruns row (heq ▸ hrow₀)

theorem Sound.complete (h : Sound s) (receipt : Receipt) (now : Int) (completed : List Issue) :
    Sound { s with queue := s.queue.complete receipt now, completed := completed } := by
  refine ⟨h.clock, ?_, ?_, ?_, h.unique⟩
  · intro l hl
    obtain ⟨row, hrow, hle⟩ := h.rows l hl
    refine ⟨_, Table.lookup_update_eq_some.mpr ⟨row, hrow, rfl⟩, ?_⟩
    split_ifs <;> exact hle
  · intro id row' hrow' hleased
    obtain ⟨row, hrow, -, ⟨-, rfl⟩ | ⟨-, hst⟩⟩ := lookup_complete hrow'
    · exact h.leased id row' hrow hleased
    · rw [hst] at hleased
      split_ifs at hleased
  · intro l hl hruns row' hrow'
    obtain ⟨row, hrow, hatt, hcases⟩ := lookup_complete hrow'
    obtain ⟨hatt', hst'⟩ := h.running l hl hruns row hrow
    refine ⟨hatt.trans hatt', ?_⟩
    rcases hcases with ⟨-, rfl⟩ | ⟨-, hst⟩
    · exact hst'
    · rw [hst]
      split_ifs <;> decide

theorem Sound.tick (h : Sound s) (t : Int) : Sound { s with clock := max s.clock t } where
  clock := h.clock.trans (le_max_left _ _)
  rows := h.rows
  leased := h.leased
  running := fun l hl hruns => h.running l hl ((unixMilli_mono (le_max_left _ _)).trans hruns)
  unique := h.unique

theorem Turn.sound (ht : Turn leaseTTL s e t) (h : Sound s) : Sound t := by
  cases ht with
  | refused => exact h
  | tick t => exact h.tick t
  | enqueue jobs now => exact h.enqueue jobs now
  | claim worker n now picked read picks => exact h.claim read picks
  | complete l receipt now => exact h.complete receipt now _

/-- The `Complete` is called for the job of its lease, for the first time, before the lease expires. -/
def System.Timely (s : System) : Event → Prop
  | .complete l receipt _ => l ∈ s.issued ∧ l ∉ s.completed ∧ s.Runs l ∧ receipt.jobID = l.job
  | _ => True

/-- Every `Complete` of the run is timely where it is called. -/
def TimelyRun (leaseTTL : Int) : System → List Event → Prop
  | _, [] => True
  | s, e :: es => s.Timely e ∧ TimelyRun leaseTTL (step leaseTTL s e) es

/-- A lease that runs and was not completed shows in the row of its job. -/
def Held (s : System) : Prop :=
  ∀ l ∈ s.issued, l ∉ s.completed → s.Runs l → ∀ row, s.queue.jobs.lookup l.job = some row → row.status = .leased

def System.Done (s : System) (id : GoString) (receipt : Receipt) : Prop :=
  ∃ row, s.queue.jobs.lookup id = some row ∧ row.status = .done ∧ s.queue.receipts.lookup id = some receipt

theorem Held.current (hheld : Held s) (h : Sound s) (hl : l ∈ s.issued) (hopen : l ∉ s.completed)
    (hruns : s.Runs l) : s.Current l := by
  obtain ⟨row, hrow, -⟩ := h.rows l hl
  have hleased := hheld l hl hopen hruns row hrow
  have hatt := (h.running l hl hruns row hrow).1
  have heq : l = ⟨row.leaseOwner, l.job, row.attempt, row.leaseUntil⟩ :=
    h.unique l hl _ (h.leased l.job row hrow hleased) rfl hatt.symm
  exact ⟨row, hrow, hleased, (congrArg Issue.worker heq).symm, hatt, (congrArg Issue.leaseUntil heq).symm⟩

theorem Turn.held (ht : Turn leaseTTL s e t) (he : s.Timely e) (h : Sound s) (hheld : Held s) : Held t := by
  cases ht with
  | refused => exact hheld
  | tick t => exact fun l hl hopen hruns => hheld l hl hopen ((unixMilli_mono (le_max_left _ _)).trans hruns)
  | enqueue jobs now =>
    intro l hl hopen hruns row hrow
    obtain ⟨row₀, hrow₀, -⟩ := h.rows l hl
    have heq : row = row₀ := Option.some.inj (hrow.symm.trans (lookup_enqueue_of_some now hrow₀ jobs))
    exact hheld l hl hopen hruns row (heq ▸ hrow₀)
  | claim worker n now picked read picks =>
    intro l hl hopen hruns row' hrow'
    obtain ⟨row, hrow, hcases⟩ := lookup_claim picks hrow'
    rcases hcases with ⟨-, -, hleased, -⟩ | ⟨hnot, -, hsame⟩
    · exact hleased
    · rcases mem_append.mp hl with hold | hnew
      · have hleased := hheld l hold hopen hruns row hrow
        rcases hsame with rfl | ⟨-, -, hexp⟩
        · exact hleased
        · exact absurd hexp (h.not_expired hold hruns read.2 hrow hleased)
      · obtain ⟨id, hid, rfl⟩ := mem_issues.mp hnew
        exact absurd hid hnot
  | complete l₀ receipt now =>
    obtain ⟨hl₀, -, hruns₀, hjob₀⟩ := he
    intro l hl hopen hruns row' hrow'
    rw [mem_cons, not_or] at hopen
    obtain ⟨row, hrow, hatt, ⟨-, rfl⟩ | ⟨hjob, -⟩⟩ := lookup_complete hrow'
    · exact hheld l hl hopen.2 hruns row' hrow
    · -- Another running lease of the same job would be the same lease.
      have hsame : l.job = l₀.job := hjob.trans hjob₀
      have hatt₀ := (h.running l₀ hl₀ hruns₀ row (hsame ▸ hrow)).1
      exact absurd (h.unique l hl l₀ hl₀ hsame ((h.running l hl hruns row hrow).1.symm.trans hatt₀)) hopen.1

/-- A job that is done is not touched by a timely call. -/
theorem Turn.done (ht : Turn leaseTTL s e t) (he : s.Timely e) (hheld : Held s)
     (hdone : s.Done id receipt) : t.Done id receipt := by
  obtain ⟨row, hrow, hst, hrcpt⟩ := hdone
  cases ht with
  | refused | tick t => exact ⟨row, hrow, hst, hrcpt⟩
  | enqueue jobs now => exact ⟨row, lookup_enqueue_of_some now hrow jobs, hst, hrcpt⟩
  | claim worker n now picked read picks =>
    obtain ⟨row', hrow', hcases⟩ := exists_lookup_claim leaseTTL worker picks hrow
    refine ⟨row', hrow', ?_, hrcpt⟩
    have hnot : ¬ row.status = .leased := by rw [hst]; decide
    rcases hcases with ⟨-, hpend | ⟨hleased, -⟩, -⟩ | ⟨-, -, rfl | ⟨-, hleased, -⟩⟩
    · rw [hst] at hpend
      cases hpend
    · exact absurd hleased hnot
    · exact hst
    · exact absurd hleased hnot
  | complete l receipt' now =>
    obtain ⟨hl, hopen, hruns, hjob⟩ := he
    have hne : id ≠ receipt'.jobID := by
      rintro rfl
      rw [hjob] at hrow
      have hleased := hheld l hl hopen hruns row hrow
      rw [hst] at hleased
      cases hleased
    refine ⟨row, Table.lookup_update_eq_some.mpr ⟨row, hrow, if_neg (by simpa using hne)⟩, hst, ?_⟩
    dsimp only [Queue.complete]
    rw [lookup_insert_eq, if_neg hne, hrcpt]

theorem run_append (leaseTTL : Int) (s : System) (es es' : List Event) :
    run leaseTTL s (es ++ es') = run leaseTTL (run leaseTTL s es) es' := foldl_append

theorem sound_run (h : Sound s) (es : List Event) : Sound (run leaseTTL s es) :=
  List.foldlRecOn es (step leaseTTL) h fun _ hs e _ => (turn_step leaseTTL _ e).sound hs

theorem timelyRun_append {es' : List Event} :
    TimelyRun leaseTTL s (es ++ es') ↔ TimelyRun leaseTTL s es ∧ TimelyRun leaseTTL (run leaseTTL s es) es' := by
  induction es generalizing s with
  | nil => exact ⟨fun h => ⟨trivial, h⟩, fun h => h.2⟩
  | cons e es ih =>
    simp only [cons_append, TimelyRun, ih, and_assoc]
    rfl

/-- What holds of a timely run from a state: it stays sound, the leases stay held, and what is done stays done. -/
theorem timely_run (h : Sound s) (hheld : Held s) (hes : TimelyRun leaseTTL s es) :
    Held (run leaseTTL s es) ∧ ∀ id receipt, s.Done id receipt → (run leaseTTL s es).Done id receipt := by
  induction es generalizing s with
  | nil => exact ⟨hheld, fun _ _ hdone => hdone⟩
  | cons e es ih =>
    have ht := turn_step leaseTTL s e
    obtain ⟨hheld', hdone'⟩ := ih (ht.sound h) (ht.held hes.1 h hheld) hes.2
    exact ⟨hheld', fun id receipt hdone => hdone' id receipt (ht.done hes.1 hheld hdone)⟩

/-- The queue was opened at `t`, and the leases that were issued end after the epoch. -/
structure PositiveSince (t : Int) (s : System) : Prop where
  opened : s.opened = t
  positive : ∀ l ∈ s.issued, 0 < l.leaseUntil

theorem Turn.positive {t : Int} (ht : 1000000 ≤ t) {s' : System} (hturn : Turn leaseTTL s e s')
    (h : PositiveSince t s) : PositiveSince t s' := by
  cases hturn with
  | refused => exact h
  | tick | enqueue => exact ⟨h.opened, h.positive⟩
  | claim worker n now picked read picks =>
    refine ⟨h.opened, fun l hl => ?_⟩
    rcases mem_append.mp hl with hold | hnew
    · exact h.positive l hold
    · obtain ⟨id, -, rfl⟩ := mem_issues.mp hnew
      have hread := read.1
      rw [h.opened] at hread
      exact leaseEnd_pos leaseTTL (ht.trans hread)
  | complete => exact ⟨h.opened, h.positive⟩

theorem positive_run {t : Int} (ht : 1000000 ≤ t) (h : PositiveSince t s) (es : List Event) :
    PositiveSince t (run leaseTTL s es) :=
  List.foldlRecOn es (step leaseTTL) h fun _ hs e _ => (turn_step leaseTTL _ e).positive ht hs

/-- A pending job, or one whose lease has expired, is pending for a claim at the reading `nowMS`. -/
theorem mem_matching_reclaim (hrow : jobs.lookup id = some row)
    (hfree : row.status = .pending ∨ row.status = .leased ∧ 0 < row.leaseUntil ∧ row.leaseUntil < nowMS) :
    id ∈ Table.matching (fun row => row.status = .pending) (reclaim nowMS jobs) := by
  rw [Table.mem_matching, reclaim, Table.lookup_update, hrow]
  refine ⟨_, rfl, ?_⟩
  rcases hfree with hpend | ⟨hleased, hpos, hexp⟩
  · simp [hpend]
  · simp [hleased, hpos, hexp]

/-- A claim for enough jobs gets every job that is free. -/
theorem claimed_of_free (hrow : q.jobs.lookup id = some row)
    (hfree : row.status = .pending ∨ row.status = .leased ∧ 0 < row.leaseUntil ∧ row.leaseUntil < unixMilli now)
    (hn : q.jobs.len ≤ n) (worker : GoString) (hpicks : Picks n (reclaim (unixMilli now) q.jobs) picked) :
    ∃ row', (q.claim leaseTTL worker now picked).jobs.lookup id = some row' ∧ row'.status = .leased ∧
      row'.leaseOwner = worker ∧ row'.attempt = row.attempt + 1 := by
  have hlen : (Table.matching (fun row => decide (row.status = JobStatus.pending))
    (reclaim (unixMilli now) q.jobs)).card ≤ n := by
    refine (Table.card_matching_le _ _).trans ?_
    rwa [len, reclaim, Table.keys_update]
  have hid : id ∈ picked := (Table.Selects.mem_iff hpicks hlen).mpr (mem_matching_reclaim hrow hfree)
  obtain ⟨row', hrow', ⟨-, -, hleased, howner, -, hatt⟩ | ⟨hnot, -⟩⟩ := exists_lookup_claim leaseTTL worker hpicks hrow
  · exact ⟨row', hrow', hleased, howner, hatt⟩
  · exact absurd hid hnot

/-- Every job that is neither done nor failed and has no running lease can be claimed: a claim for as many jobs as there
are has a result, and every result of it has the job. -/
def System.Claimable (s : System) (leaseTTL : Int) : Prop :=
  ∀ id row, s.queue.jobs.lookup id = some row → row.status ≠ .done → row.status ≠ .failed →
    ∀ now, (row.status = .leased → row.leaseUntil < unixMilli now) → ∀ n, s.queue.jobs.len ≤ n → ∀ worker,
      (∃ picked, Picks n (reclaim (unixMilli now) s.queue.jobs) picked) ∧
        ∀ picked, Picks n (reclaim (unixMilli now) s.queue.jobs) picked →
          ∃ row', (s.queue.claim leaseTTL worker now picked).jobs.lookup id = some row' ∧ row'.status = .leased ∧
            row'.leaseOwner = worker ∧ row'.attempt = row.attempt + 1

theorem claimable_of_sound (h : Sound s) (hpos : ∀ l ∈ s.issued, 0 < l.leaseUntil) : s.Claimable leaseTTL := by
  intro id row hrow hdone hfailed now hexp n hn worker
  refine ⟨Table.exists_selects _ _ _ _, fun picked hpicks => claimed_of_free hrow ?_ hn worker hpicks⟩
  cases hst : row.status with
  | pending => exact .inl rfl
  | leased => exact .inr ⟨rfl, hpos _ (h.leased id row hrow hst), hexp hst⟩
  | done => exact absurd hst hdone
  | failed => exact absurd hst hfailed

/-- In every run of a queue opened after the first millisecond of the epoch in which every `Complete` is called for the
first time and before its lease expires: a job has one running lease at most; a `Complete` finds its lease in the row of
the job; a job that is done stays done with its receipt; and a job that is neither done nor failed can be claimed once
its lease has expired. -/
theorem timely_leases_exclusive (leaseTTL opened : Int) (hopened : 1000000 ≤ opened) (before after : List Event)
    (htimely : TimelyRun leaseTTL (openQueue opened) (before ++ after)) :
    let s := run leaseTTL (openQueue opened) before
    let t := run leaseTTL s after
    (∀ l ∈ t.issued, ∀ l' ∈ t.issued, t.Runs l → t.Runs l' → l.job = l'.job → l = l') ∧
      (∀ l receipt now rest, after = .complete l receipt now :: rest → s.Current l ∧ receipt.jobID = l.job) ∧
      (∀ id receipt, s.Done id receipt → t.Done id receipt) ∧ t.Claimable leaseTTL := by
  intro s t
  obtain ⟨hbef, hafter⟩ := timelyRun_append.mp htimely
  have hs : Sound s := sound_run (sound_openQueue opened) before
  have ht : Sound t := sound_run hs after
  have hheld : Held s :=
    (timely_run (sound_openQueue opened) (fun l hl => by simp [openQueue] at hl) hbef).1
  have hpos : PositiveSince opened (run leaseTTL (openQueue opened) (before ++ after)) :=
    positive_run hopened ⟨rfl, by simp [openQueue]⟩ _
  refine ⟨?_, ?_, (timely_run hs hheld hafter).2, ?_⟩
  · intro l hl l' hl' hruns hruns' hjob
    obtain ⟨row, hrow, -⟩ := ht.rows l hl
    have hatt := (ht.running l hl hruns row hrow).1
    have hatt' := (ht.running l' hl' hruns' row (hjob ▸ hrow)).1
    exact ht.unique l hl l' hl' hjob (hatt.symm.trans hatt')
  · rintro l receipt now rest rfl
    obtain ⟨hl, hopen, hruns, hjob⟩ := hafter.1
    exact ⟨hheld.current hs hl hopen hruns, hjob⟩
  · rw [run_append] at hpos
    exact claimable_of_sound ht hpos.positive

def exampleJob : Job := ⟨lit "j", lit "d2q", lit "g", lit "d", lit "\x7b\x7d"⟩

def exampleReceipt (ok : Bool) (output : GoString) : Receipt :=
  ⟨lit "j", lit "d2q", lit "g", lit "d", ok, [], output, 5000000⟩

/-- The lease of the first worker expires and a second worker takes the job. -/
def takenOver : List Event :=
  [.enqueue [exampleJob] 1000000, .claim (lit "w1") 1 1000000 [lit "j"], .tick 4000000,
    .claim (lit "w2") 1 4000000 [lit "j"]]

def secondReport : Event := .complete ⟨lit "w2", lit "j", 2, 5⟩ (exampleReceipt true (lit "two")) 4000000

/-- The report of the first worker, after that of the second: the job turns from done to failed, with another
receipt. -/
theorem late_complete_takes_effect :
    let s := step 1000000 (run 1000000 (openQueue 1000000) takenOver) secondReport
    let late : Issue := ⟨lit "w1", lit "j", 1, 2⟩
    let t := step 1000000 s (.complete late (exampleReceipt false (lit "one")) 4000000)
    late ∈ s.issued ∧ (s.queue.jobs.lookup (lit "j")).map (·.status) = some .done ∧
      (s.queue.receipts.lookup (lit "j")).map (fun r => (r.ok, r.output)) = some (true, lit "two") ∧
      (t.queue.jobs.lookup (lit "j")).map (·.status) = some .failed ∧
      (t.queue.receipts.lookup (lit "j")).map (fun r => (r.ok, r.output)) = some (false, lit "one") := by
  decide +kernel

theorem timelyRun_secondReport : TimelyRun 1000000 (openQueue 1000000) (takenOver ++ [secondReport]) := by
  refine timelyRun_append.mpr ⟨⟨trivial, trivial, trivial, trivial, trivial⟩, ⟨?_, ?_, ?_, rfl⟩, trivial⟩
  · decide +kernel
  · decide +kernel
  · unfold System.Runs
    decide +kernel

theorem timely_leases_exclusive_second_worker :
    let s := run 1000000 (openQueue 1000000) takenOver
    s.issued.length = 2 ∧ s.Current ⟨lit "w2", lit "j", 2, 5⟩ ∧ (run 1000000 s [secondReport]).Claimable 1000000 := by
  have h := timely_leases_exclusive 1000000 1000000 le_rfl takenOver [secondReport] timelyRun_secondReport
  exact ⟨by decide +kernel, (h.2.1 _ _ _ _ rfl).1, h.2.2.2⟩

end CodeMemory.Gardener
