import CodeMemory.Handover.Coordinator
import CodeMemory.Lib.Schedule

/-! `Cleanup` next to the other calls of a coordinator. A cleanup closes the
coordinator for new target runs, waits until it sees no active target, and then lets
both executors remove what the task left, outside the mutex. -/

namespace CodeMemory.Handover

open Lib Lib.GoString List

structure CleanupReceipt where
  workspacesRemoved : List GoString
  modalAppsClosed : List GoString
  bundlesPurged : List GoString
  complete : Bool
  deriving DecidableEq

def CleanupReceipt.merge (s t : CleanupReceipt) : CleanupReceipt where
  workspacesRemoved := s.workspacesRemoved ++ t.workspacesRemoved
  modalAppsClosed := s.modalAppsClosed ++ t.modalAppsClosed
  bundlesPurged := s.bundlesPurged ++ t.bundlesPurged
  complete := s.complete && t.complete

inductive Cleaning where
  /-- In the loop that sleeps while the target is active. -/
  | waiting
  /-- The source executor cleans up. -/
  | source
  /-- The target executor cleans up; the source has. -/
  | target (s : CleanupReceipt)
  /-- Both have. -/
  | merged (receipt : CleanupReceipt)
  deriving DecidableEq

/-- The system with its `Cleanup` calls and the receipts the coordinator keeps of them. -/
structure Cleanups where
  handover : System
  calls : List Cleaning
  receipts : List CleanupReceipt
  deriving DecidableEq

/-- A section of some call, or the return of an executor's cleanup; `i` names the `Cleanup` call. -/
inductive CleanupEvent where
  | other (e : Event)
  | cleanup
  | poll (i : ℕ)
  | done (i : ℕ)
  | sourceCleaned (i : ℕ) (s : CleanupReceipt)
  | targetCleaned (i : ℕ) (t : CleanupReceipt)
  | append (i : ℕ)
  deriving DecidableEq

/-- Whether the loop of `Cleanup` goes on. -/
def poll (c : Coordinator) : Cleaning := if c.targetActive then .waiting else .source

section

variable (sha256 : GoString → GoString)

def Cleanups.step (s : Cleanups) : CleanupEvent → Cleanups
  | .other e => { s with handover := Handover.step sha256 s.handover e }
  | .cleanup =>
    let handover := Handover.step sha256 s.handover .cleanup
    { s with handover := handover, calls := s.calls ++ [poll handover.coordinator] }
  | .poll i =>
    match s.calls[i]? with
    | some .waiting => { s with calls := s.calls.set i (poll s.handover.coordinator) }
    | _ => s
  | .done i =>
    match s.calls[i]? with
    | some .waiting => { s with calls := s.calls.eraseIdx i }
    | _ => s
  | .sourceCleaned i r =>
    match s.calls[i]? with
    | some .source => { s with calls := s.calls.set i (.target r) }
    | _ => s
  | .targetCleaned i t =>
    match s.calls[i]? with
    | some (.target r) => { s with calls := s.calls.set i (.merged (r.merge t)) }
    | _ => s
  | .append i =>
    match s.calls[i]? with
    | some (.merged receipt) => { s with calls := s.calls.eraseIdx i, receipts := s.receipts ++ [receipt] }
    | _ => s

def Cleanups.run (s : Cleanups) (es : List CleanupEvent) : Cleanups :=
  es.foldl (Cleanups.step sha256) s

def Cleanups.start (taskID : GoString) : Cleanups := ⟨Handover.start taskID, [], []⟩

def running (calls : List Call) : List Resume :=
  calls.filterMap fun call => match call with
    | .running r => some r
    | .returned .. => none

def Cleaning.cleans : Cleaning → Bool
  | .source | .target _ => true
  | .waiting | .merged _ => false

/-- No executor cleans up while the target works. -/
def Cleanups.Quiet (s : Cleanups) : Prop := (∃ c ∈ s.calls, c.cleans = true) → running s.handover.calls = []

instance (s : Cleanups) : Decidable s.Quiet := inferInstanceAs (Decidable (_ → _))

/-- A target run starts only while no other is under way. -/
def Alone (s : Cleanups) (e : CleanupEvent) : Prop :=
  e = .other .resumeTarget → (resumeTarget s.handover.coordinator).isOk = true → running s.handover.calls = []

instance (s : Cleanups) (e : CleanupEvent) : Decidable (Alone s e) := inferInstanceAs (Decidable (_ → _))

theorem running_append (calls calls' : List Call) : running (calls ++ calls') = running calls ++ running calls' :=
  filterMap_append

/-- What a section of another call can do to the runs of the target, the flag and the closing of the coordinator. -/
inductive Target (s : System) (e : Event) : System → Prop
  | same (t : System) (runs : running t.calls = running s.calls)
    (active : t.coordinator.targetActive = s.coordinator.targetActive)
    (closed : s.coordinator.cleaning = true → t.coordinator.cleaning = true) : Target s e t
  | start (t : System) (r : Resume) (resumes : e = .resumeTarget) (accepted : (resumeTarget s.coordinator).isOk = true)
    (opened : s.coordinator.cleaning = false) (runs : running t.calls = running s.calls ++ [r])
    (active : t.coordinator.targetActive = true) : Target s e t
  | finish (t : System) (pre post : List Resume) (r : Resume) (before : running s.calls = pre ++ r :: post)
    (after : running t.calls = pre ++ post) (active : t.coordinator.targetActive = false)
    (closed : s.coordinator.cleaning = true → t.coordinator.cleaning = true) : Target s e t

theorem target_commit (s : System) {e : Event} {calls : List Call} (hcalls : running calls = running s.calls)
    (fence : UInt64) (realm : RealmKind) (attempt : ℕ) (result : GoString) (now : Int) :
    Target s e ({ s with calls := calls }.commit fence realm attempt result now) := by
  unfold System.commit
  split
  · exact .same _ hcalls rfl id
  · next receipt c heq =>
    obtain ⟨-, -, -, -, rfl⟩ := commit_eq_ok heq
    exact .same _ hcalls rfl id

/-- A call in the list splits the runs under way around itself. -/
theorem running_split {calls : List Call} {i : ℕ} {call : Call} (h : calls[i]? = some call) :
    running calls = running (calls.take i) ++ running [call] ++ running (calls.drop (i + 1)) ∧
      (∀ call', running (calls.set i call') =
        running (calls.take i) ++ running [call'] ++ running (calls.drop (i + 1))) ∧
      running (calls.eraseIdx i) = running (calls.take i) ++ running (calls.drop (i + 1)) := by
  obtain ⟨hi, rfl⟩ := List.getElem?_eq_some_iff.mp h
  refine ⟨?_, fun call' => ?_, ?_⟩
  · rw [← running_append, ← running_append, append_assoc, singleton_append, getElem_cons_drop,
      take_append_drop]
  · rw [← running_append, ← running_append, append_assoc, singleton_append, set_eq_take_append_cons_drop,
      if_pos hi]
  · rw [← running_append, eraseIdx_eq_take_drop_succ]

theorem executed_target (c : Coordinator) (failed : Bool) :
    (executed c failed).targetActive = false ∧ (executed c failed).cleaning = c.cleaning := by
  unfold executed
  dsimp only
  split <;> exact ⟨rfl, rfl⟩

theorem target_executed (s : System) {e : Event} (i : ℕ) (result : Option GoString) :
    Target s e (s.executed i result) := by
  unfold System.executed
  split
  · next r hi =>
    obtain ⟨hbef, hset, herase⟩ := running_split hi
    obtain ⟨hact, hcleaning⟩ := executed_target s.coordinator result.isNone
    refine .finish _ (running (s.calls.take i)) (running (s.calls.drop (i + 1))) r ?_ ?_ hact hcleaning.trans
    · rw [hbef, append_assoc]
      rfl
    · cases result with
      | none => exact herase
      | some digest => rw [hset]; simp [running]
  · exact .same _ rfl rfl id

theorem resumeTarget_eq_ok {c c' : Coordinator} {r : Resume} (h : resumeTarget c = .ok (r, c')) :
    c.cleaning = false ∧ c'.targetActive = true := by
  simp only [resumeTarget, Result.guard_eq_ok_iff, Bool.not_eq_true] at h
  obtain ⟨-, hopen, h⟩ := h
  split at h
  · cases h
  · simp only [Result.guard_eq_ok_iff] at h
    obtain ⟨-, h⟩ := h
    split at h
    · cases h
    · cases h
      exact ⟨hopen, rfl⟩

theorem target_step (s : System) (e : Event) : Target s e (step sha256 s e) := by
  cases e with
  | checkpoint bundleDigest steps now =>
    dsimp only [step]
    split
    · exact .same _ rfl rfl id
    · next heq =>
      simp only [checkpoint, Result.guard_eq_ok_iff, Except.ok.injEq, Prod.mk.injEq] at heq
      obtain ⟨-, -, -, rfl⟩ := heq
      exact .same _ rfl rfl id
  | transfer target =>
    dsimp only [step]
    split
    · exact .same _ rfl rfl id
    · next heq =>
      obtain ⟨-, rfl⟩ := transfer_eq_ok heq
      exact .same _ rfl rfl id
  | resumeTarget =>
    dsimp only [step]
    split
    · exact .same _ rfl rfl id
    · next r c heq =>
      obtain ⟨hopen, hact⟩ := resumeTarget_eq_ok heq
      exact .start _ r rfl (by rw [heq]; rfl) hopen (running_append ..) hact
  | executed i result => exact target_executed s i result
  | commit i realm now =>
    dsimp only [step]
    split
    · next r result hi =>
      obtain ⟨hbef, -, herase⟩ := running_split hi
      refine target_commit s ?_ _ _ _ _ _
      rw [herase, hbef]
      simp [running]
    · exact .same _ rfl rfl id
  | commitUnderFence fence realm result now => exact target_commit s rfl _ _ _ _ _
  | revoke => exact .same _ rfl rfl id
  | cleanup => exact .same _ rfl rfl fun _ => rfl

/-- The flag speaks for the one run that can be under way, and a `Cleanup` call has closed the coordinator. -/
structure Cleanups.Guarded (s : Cleanups) : Prop where
  one : (running s.handover.calls).length ≤ 1
  active : running s.handover.calls ≠ [] → s.handover.coordinator.targetActive = true
  closed : s.calls ≠ [] → s.handover.coordinator.cleaning = true
  quiet : s.Quiet

theorem guarded_start (taskID : GoString) : (Cleanups.start taskID).Guarded :=
  ⟨Nat.zero_le 1, fun h => absurd rfl h, fun h => absurd rfl h, fun _ => rfl⟩

variable {s : Cleanups}

section

variable (hs : s.Guarded)
include hs

/-- A section of another call keeps the guard, if a run starts alone. -/
theorem Cleanups.Guarded.target {e : Event} {h : System} (ht : Target s.handover e h)
    (halone : e = .resumeTarget → (resumeTarget s.handover.coordinator).isOk = true → running s.handover.calls = []) :
    { s with handover := h }.Guarded := by
  cases ht with
  | same runs active closed =>
    refine ⟨?_, ?_, fun hc => closed (hs.closed hc), fun hc => ?_⟩
    · exact runs ▸ hs.one
    · exact fun hr => active.trans (hs.active (runs ▸ hr))
    · exact runs.trans (hs.quiet hc)
  | start r resumes accepted opened runs active =>
    rw [halone resumes accepted] at runs
    -- The coordinator is open, so there is no `Cleanup` call at all.
    have hnone : s.calls = [] := by
      by_contra hne
      rw [hs.closed hne] at opened
      cases opened
    refine ⟨by rw [runs]; rfl, fun _ => active, fun hc => absurd hnone hc, fun hc => ?_⟩
    obtain ⟨c, hc, -⟩ := hc
    rw [hnone] at hc
    cases hc
  | finish pre post r before after active closed =>
    have hempty : pre = [] ∧ post = [] := by
      have hone := hs.one
      rw [before, length_append, length_cons] at hone
      exact ⟨eq_nil_of_length_eq_zero (by omega), eq_nil_of_length_eq_zero (by omega)⟩
    obtain ⟨rfl, rfl⟩ := hempty
    exact ⟨by rw [after]; exact Nat.zero_le 1, fun hr => absurd after hr, fun hc => closed (hs.closed hc),
      fun _ => after⟩

/-- `Cleanup` calls come and go, in phases that clean up only when no run is under way. -/
theorem Cleanups.Guarded.move {calls : List Cleaning} {receipts : List CleanupReceipt}
    (h : ∀ c ∈ calls, c ∈ s.calls ∨
      s.handover.coordinator.cleaning = true ∧ (c.cleans = true → running s.handover.calls = [])) :
    { s with calls := calls, receipts := receipts }.Guarded := by
  refine ⟨hs.one, hs.active, fun hne => ?_, ?_⟩
  · obtain ⟨c, hc⟩ := exists_mem_of_ne_nil calls hne
    rcases h c hc with hmem | ⟨hcl, -⟩
    · exact hs.closed (ne_nil_of_mem hmem)
    · exact hcl
  · rintro ⟨c, hc, hcleans⟩
    rcases h c hc with hmem | ⟨-, hquiet⟩
    · exact hs.quiet ⟨c, hmem, hcleans⟩
    · exact hquiet hcleans

/-- The loop is left only when no run is under way. -/
theorem Cleanups.Guarded.poll (h : (poll s.handover.coordinator).cleans = true) :
    running s.handover.calls = [] := by
  by_contra hne
  rw [Handover.poll, hs.active hne] at h
  cases h

/-- A call of the list takes its next phase. -/
theorem Cleanups.Guarded.advance {i : ℕ} {c c' : Cleaning} (hi : s.calls[i]? = some c)
    (h : c'.cleans = true → c.cleans = true ∨ running s.handover.calls = []) :
    { s with calls := s.calls.set i c' }.Guarded := by
  have hmem : c ∈ s.calls := mem_of_getElem? hi
  refine hs.move fun d hd => ?_
  rcases mem_or_eq_of_mem_set hd with hd | rfl
  · exact .inl hd
  · refine .inr ⟨hs.closed (ne_nil_of_mem hmem), fun hcleans => ?_⟩
    rcases h hcleans with hc | hnone
    · exact hs.quiet ⟨c, hmem, hc⟩
    · exact hnone

theorem Cleanups.Guarded.leave (i : ℕ) (receipts : List CleanupReceipt) :
    { s with calls := s.calls.eraseIdx i, receipts := receipts }.Guarded :=
  hs.move fun _ hc => .inl (mem_of_mem_eraseIdx hc)

end

theorem guarded_step {e : CleanupEvent} (he : Alone s e) (hs : s.Guarded) : (s.step sha256 e).Guarded := by
  cases e with
  | other e =>
    exact hs.target (target_step sha256 s.handover e) fun heq => he (congrArg CleanupEvent.other heq)
  | cleanup =>
    have hs := hs.target (target_step sha256 s.handover .cleanup) fun heq => by cases heq
    refine hs.move fun c hc => ?_
    rcases mem_append.mp hc with hc | hc
    · exact .inl hc
    · cases mem_singleton.mp hc
      exact .inr ⟨rfl, hs.poll⟩
  | poll i =>
    dsimp only [Cleanups.step]
    split
    · next hi => exact hs.advance hi fun h => .inr (hs.poll h)
    · exact hs
  | done i =>
    dsimp only [Cleanups.step]
    split
    · exact hs.leave i s.receipts
    · exact hs
  | sourceCleaned i r =>
    dsimp only [Cleanups.step]
    split
    · next hi => exact hs.advance hi fun _ => .inl rfl
    · exact hs
  | targetCleaned i t =>
    dsimp only [Cleanups.step]
    split
    · next hi => exact hs.advance hi fun h => by cases h
    · exact hs
  | append i =>
    dsimp only [Cleanups.step]
    split
    · exact hs.leave i _
    · exact hs

end

section Runs

variable (sha256 : GoString → GoString)

/-- Once the coordinator is closed, runs of the target only end. -/
theorem closed_step {s : Cleanups} (e : CleanupEvent) (hs : s.handover.coordinator.cleaning = true) :
    (s.step sha256 e).handover.coordinator.cleaning = true ∧
      (running (s.step sha256 e).handover.calls).Sublist (running s.handover.calls) := by
  have htarget : ∀ {e : Event}, (step sha256 s.handover e).coordinator.cleaning = true ∧
      (running (step sha256 s.handover e).calls).Sublist (running s.handover.calls) := by
    intro e
    cases target_step sha256 s.handover e with
    | same runs _ closed => exact ⟨closed hs, runs ▸ List.Sublist.refl _⟩
    | start _ _ _ opened =>
      rw [hs] at opened
      cases opened
    | finish pre post r before after _ closed =>
      refine ⟨closed hs, ?_⟩
      rw [before, after]
      exact (List.Sublist.refl pre).append (sublist_cons_self r post)
  cases e with
  | other e | cleanup => exact htarget
  | poll i | done i | sourceCleaned i | targetCleaned i | append i =>
    dsimp only [Cleanups.step]
    split <;> exact ⟨hs, .refl _⟩

theorem closed_run {s : Cleanups} (hs : s.handover.coordinator.cleaning = true) (es : List CleanupEvent) :
    (s.run sha256 es).handover.coordinator.cleaning = true ∧
      (running (s.run sha256 es).handover.calls).Sublist (running s.handover.calls) := by
  refine List.foldlRecOn (motive := fun t : Cleanups => t.handover.coordinator.cleaning = true ∧
    (running t.handover.calls).Sublist (running s.handover.calls)) es _ ⟨hs, .refl _⟩ ?_
  rintro t ⟨hcl, hruns⟩ e -
  obtain ⟨hcl, hstep⟩ := closed_step sha256 e hcl
  exact ⟨hcl, hstep.trans hruns⟩

/-- In every interleaving of the calls in which a run of the target starts only while no other is under way, no
executor cleans up while the target works, in any state reached; and no run starts after a `Cleanup` has begun. -/
theorem cleanup_waits_for_target (taskID : GoString) {before : List CleanupEvent}
    (halone : Schedule.Meets (Cleanups.step sha256) Alone (Cleanups.start taskID) before) :
    let s := (Cleanups.start taskID).run sha256 before
    s.Quiet ∧ (CleanupEvent.cleanup ∈ before → ∀ after : List CleanupEvent,
      (running (s.run sha256 after).handover.calls).Sublist (running s.handover.calls)) := by
  intro s
  constructor
  · exact (halone.keeps (fun s e => guarded_step sha256) (guarded_start taskID)).quiet
  · intro hmem after
    obtain ⟨es, es', rfl⟩ := append_of_mem hmem
    have hcl : s.handover.coordinator.cleaning = true := by
      have hsplit : s = (((Cleanups.start taskID).run sha256 es).step sha256 .cleanup).run sha256 es' :=
        foldl_append
      rw [hsplit]
      exact (closed_run sha256 rfl es').1
    exact (closed_run sha256 hcl after).2

end Runs

def resumed : List CleanupEvent :=
  [.other (.checkpoint (lit "b") [] 0), .other (.transfer .realmModal), .other .resumeTarget]

/-- A run that fails, a second one, and a `Cleanup` that waits for it. -/
theorem cleanup_waits_for_retry :
    let es := resumed ++ [.other (.executed 0 none), .other .resumeTarget, .cleanup, .poll 0]
    let s := (Cleanups.start (lit "t")).run id es
    s.calls = [.waiting] ∧ s.Quiet ∧ ((s.step id (.other (.executed 0 none))).step id (.poll 0)).calls = [.source] := by
  intro es s
  refine ⟨by decide +kernel, ?_, by decide +kernel⟩
  have halone : Schedule.Meets (Cleanups.step id) Alone (Cleanups.start (lit "t")) es := by decide +kernel
  exact (cleanup_waits_for_target id (lit "t") halone).1

/-- Two runs overlap. The return of the first clears the flag, and the executors clean up while the second works. -/
theorem cleanup_overlaps_second_run :
    let es := resumed ++ [.other .resumeTarget, .cleanup, .other (.executed 0 none), .poll 0]
    let s := (Cleanups.start (lit "t")).run id es
    s.calls = [.source] ∧ (running s.handover.calls).length = 1 ∧ ¬ s.Quiet := by
  decide +kernel

end CodeMemory.Handover
