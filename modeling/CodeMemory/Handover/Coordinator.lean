import CodeMemory.Lib.GoString
import CodeMemory.Lib.Result

/-! The handover coordinator of one task. Each method is the sequence of its
sections under the mutex: a section runs alone, and everything between two
sections of a call (the run of the leaf on the target) is free to overlap with
other calls. -/

namespace CodeMemory.Handover

open Lib Lib.GoString Lib.Result

inductive Err where
  | rejected
  | staleFence
  | duplicate
  | incompatibleRealm
  | revoked
  deriving DecidableEq

/-- A realm name; only two of them are certified. -/
inductive RealmKind where
  | realmLocal
  | realmModal
  | other (name : GoString)
  deriving DecidableEq

inductive HandoverState where
  | runningSource
  | quiescing
  | prepared
  | fenceAdvanced
  | replaying
  | runningTarget
  | completed
  | paused
  | cancelled
  deriving DecidableEq

structure Checkpoint where
  taskID : GoString
  workflowVersion : GoString
  bundleDigest : GoString
  mailboxCursor : UInt64
  completedSteps : List GoString
  capabilityReqs : List GoString
  createdUnderFence : UInt64
  checkpointDigest : GoString
  createdAt : Int
  deriving DecidableEq

structure CompletionReceipt where
  taskID : GoString
  fence : UInt64
  realm : RealmKind
  attempt : ℕ
  resultDigest : GoString
  committedAt : Int
  deriving DecidableEq

def hexDigit (n : ℕ) : UInt8 := if n < 10 then (0x30 + n).toUInt8 else (0x57 + n).toUInt8

/-- The sixteen digits of the big-endian bytes. -/
def hexUint (v : UInt64) : GoString :=
  (List.range 16).map fun i => hexDigit (v.toNat / 16 ^ (15 - i) % 16)

section

variable (sha256 : GoString → GoString)

/-- `SealCheckpoint`; the coordinator's checkpoints have no metadata. `sha256` is the hexadecimal digest. -/
def sealCheckpoint (c : Checkpoint) : Checkpoint :=
  let bar := lit "|"
  let header := c.taskID ++ bar ++ c.workflowVersion ++ bar ++ c.bundleDigest ++ bar ++ hexUint c.mailboxCursor ++
    bar ++ hexUint c.createdUnderFence
  let steps := c.completedSteps.flatMap (bar ++ ·)
  let requirements := c.capabilityReqs.flatMap (lit "|cap:" ++ ·)
  { c with checkpointDigest := sha256 (header ++ steps ++ requirements) }

structure Coordinator where
  taskID : GoString
  fence : UInt64
  state : HandoverState
  checkpoint : Option Checkpoint
  completion : Option CompletionReceipt
  revoked : Bool
  cleaning : Bool
  targetActive : Bool
  attempts : ℕ
  deriving DecidableEq

def newCoordinator (taskID : GoString) : Coordinator where
  taskID := taskID
  fence := 1
  state := .runningSource
  checkpoint := none
  completion := none
  revoked := false
  cleaning := false
  targetActive := false
  attempts := 0

/-- The `allowed` map, which no method changes. -/
def allowed (realm : RealmKind) : Bool := realm = .realmLocal || realm = .realmModal

def checkpoint (c : Coordinator) (bundleDigest : GoString) (steps : List GoString)
    (now : Int) : Except Err (Checkpoint × Coordinator) :=
  if c.revoked then .error .revoked
  else if c.state ≠ .runningSource ∧ c.state ≠ .quiescing then .error .rejected
  else
    let cp := sealCheckpoint sha256
      { taskID := c.taskID
        workflowVersion := lit "wf-1"
        bundleDigest := bundleDigest
        mailboxCursor := 1
        completedSteps := steps
        capabilityReqs := [lit "compute.pure"]
        createdUnderFence := c.fence
        checkpointDigest := []
        createdAt := now }
    .ok (cp, { c with checkpoint := some cp, state := .prepared })

def transfer (c : Coordinator) (target : RealmKind) : Except Err Coordinator :=
  if c.revoked then .error .revoked
  else if c.state ≠ .prepared then .error .rejected
  else if ¬ allowed target then .error .incompatibleRealm
  else if target ≠ .realmModal then .error .incompatibleRealm
  else if c.checkpoint = none then .error .rejected
  else .ok { c with fence := c.fence + 1, state := .fenceAdvanced }

/-- What a `ResumeTarget` call takes out of its first section. -/
structure Resume where
  checkpoint : Checkpoint
  fence : UInt64
  attempt : ℕ
  deriving DecidableEq

/-- The first section of `ResumeTarget`; a duplicate comes with the receipt of the completion. -/
def resumeTarget (c : Coordinator) : Except (Err × Option CompletionReceipt) (Resume × Coordinator) :=
  if c.revoked then .error (.revoked, none)
  else if c.cleaning then .error (.rejected, none)
  else match c.completion with
    | some receipt => .error (.duplicate, some receipt)
    | none =>
      if c.state ≠ .fenceAdvanced ∧ c.state ≠ .replaying ∧ c.state ≠ .runningTarget ∧ c.state ≠ .paused then
        .error (.rejected, none)
      else match c.checkpoint with
        | none => .error (.rejected, none)
        | some cp =>
          .ok (⟨cp, c.fence, c.attempts + 1⟩,
            { c with attempts := c.attempts + 1, state := .runningTarget, targetActive := true })

/-- The second section of `ResumeTarget`, after the executor returned. -/
def executed (c : Coordinator) (failed : Bool) : Coordinator :=
  let c := { c with targetActive := false }
  if failed ∧ ¬ c.revoked ∧ c.completion = none ∧ c.state ≠ .completed ∧ c.state ≠ .cancelled then
    { c with state := .paused }
  else c

/-- The last section of `ResumeTarget` and the whole of `CommitUnderFence`. -/
def commit (c : Coordinator) (fence : UInt64) (realm : RealmKind) (attempt : ℕ) (result : GoString) (now : Int) :
    Except (Err × Option CompletionReceipt) (CompletionReceipt × Coordinator) :=
  if c.revoked then .error (.revoked, none)
  else if fence ≠ c.fence then .error (.staleFence, none)
  else match c.completion with
    | some receipt => .error (.duplicate, some receipt)
    | none =>
      let receipt := ⟨c.taskID, fence, realm, attempt, result, now⟩
      .ok (receipt, { c with completion := some receipt, state := .completed })

def revoke (c : Coordinator) : Coordinator := { c with revoked := true, state := .cancelled }

/-- The first section of `Cleanup`. The later ones wait for the target and read nothing the other methods change. -/
def cleanup (c : Coordinator) : Coordinator := { c with cleaning := true }

inductive Call where
  | running (r : Resume)
  | returned (r : Resume) (result : GoString)
  deriving DecidableEq

/-- The coordinator, the calls that are between two sections, and the completions that were committed so far. -/
structure System where
  coordinator : Coordinator
  calls : List Call
  recorded : List CompletionReceipt
  deriving DecidableEq

/-- A section of some call. A run that fails returns no result; `i` names a call that is under way. -/
inductive Event where
  | checkpoint (bundleDigest : GoString) (steps : List GoString) (now : Int)
  | transfer (target : RealmKind)
  | resumeTarget
  | executed (i : ℕ) (result : Option GoString)
  | commit (i : ℕ) (realm : RealmKind) (now : Int)
  | commitUnderFence (fence : UInt64) (realm : RealmKind) (result : GoString) (now : Int)
  | revoke
  | cleanup
  deriving DecidableEq

def System.commit (s : System) (fence : UInt64) (realm : RealmKind) (attempt : ℕ) (result : GoString) (now : Int) :
    System :=
  match Handover.commit s.coordinator fence realm attempt result now with
  | .error _ => s
  | .ok (receipt, c) => { s with coordinator := c, recorded := s.recorded ++ [receipt] }

def System.executed (s : System) (i : ℕ) (result : Option GoString) : System :=
  match s.calls[i]? with
  | some (.running r) =>
    { s with
      coordinator := Handover.executed s.coordinator result.isNone
      calls := match result with
        | none => s.calls.eraseIdx i
        | some digest => s.calls.set i (.returned r digest) }
  | _ => s

def step (s : System) : Event → System
  | .checkpoint bundleDigest steps now =>
    match Handover.checkpoint sha256 s.coordinator bundleDigest steps now with
    | .error _ => s
    | .ok (_, c) => { s with coordinator := c }
  | .transfer target =>
    match Handover.transfer s.coordinator target with
    | .error _ => s
    | .ok c => { s with coordinator := c }
  | .resumeTarget =>
    match Handover.resumeTarget s.coordinator with
    | .error _ => s
    | .ok (r, c) => { s with coordinator := c, calls := s.calls ++ [.running r] }
  | .executed i result => s.executed i result
  | .commit i realm now =>
    match s.calls[i]? with
    | some (.returned r result) => { s with calls := s.calls.eraseIdx i }.commit r.fence realm r.attempt result now
    | _ => s
  | .commitUnderFence fence realm result now => s.commit fence realm 0 result now
  | .revoke => { s with coordinator := Handover.revoke s.coordinator }
  | .cleanup => { s with coordinator := Handover.cleanup s.coordinator }

def run (s : System) (es : List Event) : System := es.foldl (step sha256) s

def start (taskID : GoString) : System := ⟨newCoordinator taskID, [], []⟩

/-- The states before the fence moved. -/
def HandoverState.source (s : HandoverState) : Bool := s = .runningSource || s = .quiescing || s = .prepared

/-- What a section can do to the fields that decide a commit, and to the list of the completions. -/
inductive Section (s : System) : System → Prop
  | work (t : System) (fence : t.coordinator.fence = s.coordinator.fence)
    (completion : t.coordinator.completion = s.coordinator.completion)
    (revoked : t.coordinator.revoked = s.coordinator.revoked) (recorded : t.recorded = s.recorded)
    (state : t.coordinator.state.source = true → s.coordinator.state.source = true) : Section s t
  | transfer (t : System) (prepared : s.coordinator.state = .prepared)
    (fence : t.coordinator.fence = s.coordinator.fence + 1) (state : t.coordinator.state = .fenceAdvanced)
    (completion : t.coordinator.completion = s.coordinator.completion)
    (revoked : t.coordinator.revoked = s.coordinator.revoked) (recorded : t.recorded = s.recorded) : Section s t
  | commit (t : System) (receipt : CompletionReceipt) (live : s.coordinator.revoked = false)
    (fresh : s.coordinator.completion = none) (current : receipt.fence = s.coordinator.fence)
    (fence : t.coordinator.fence = s.coordinator.fence) (state : t.coordinator.state = .completed)
    (completion : t.coordinator.completion = some receipt) (revoked : t.coordinator.revoked = s.coordinator.revoked)
    (recorded : t.recorded = s.recorded ++ [receipt]) : Section s t
  | revoke (t : System) (fence : t.coordinator.fence = s.coordinator.fence) (state : t.coordinator.state = .cancelled)
    (completion : t.coordinator.completion = s.coordinator.completion) (revoked : t.coordinator.revoked = true)
    (recorded : t.recorded = s.recorded) : Section s t

theorem Section.refl (s : System) : Section s s := .work s rfl rfl rfl rfl id

variable {c c' : Coordinator} {now : Int}

theorem commit_eq_ok {fence : UInt64} {realm : RealmKind} {attempt : ℕ} {result : GoString}
    {receipt : CompletionReceipt} (h : commit c fence realm attempt result now = .ok (receipt, c')) :
    c.revoked = false ∧ fence = c.fence ∧ c.completion = none ∧
      receipt = ⟨c.taskID, fence, realm, attempt, result, now⟩ ∧
      c' = { c with completion := some receipt, state := .completed } := by
  unfold commit at h
  simp only [guard_eq_ok_iff, Bool.not_eq_true, not_not] at h
  obtain ⟨hlive, hfence, h⟩ := h
  split at h
  · cases h
  · next hnone =>
    cases h
    exact ⟨hlive, hfence, hnone, rfl, rfl⟩

theorem section_commit (s : System) (calls : List Call) (fence : UInt64) (realm : RealmKind) (attempt : ℕ)
    (result : GoString) (now : Int) : Section s ({ s with calls := calls }.commit fence realm attempt result now) := by
  unfold System.commit
  split
  · exact .work _ rfl rfl rfl rfl id
  · next receipt c heq =>
    obtain ⟨hlive, hfence, hnone, rfl, rfl⟩ := commit_eq_ok heq
    exact .commit _ _ hlive hnone hfence rfl rfl rfl rfl rfl

theorem executed_fields (c : Coordinator) (failed : Bool) :
    (executed c failed).fence = c.fence ∧ (executed c failed).completion = c.completion ∧
      (executed c failed).revoked = c.revoked ∧ ((executed c failed).state.source = true → c.state.source = true) := by
  unfold executed
  dsimp only
  split
  · exact ⟨rfl, rfl, rfl, fun h => by cases h⟩
  · exact ⟨rfl, rfl, rfl, id⟩

theorem section_executed (s : System) (i : ℕ) (result : Option GoString) : Section s (s.executed i result) := by
  unfold System.executed
  split
  · obtain ⟨hfence, hcomp, hrev, hstate⟩ := executed_fields s.coordinator result.isNone
    exact .work _ hfence hcomp hrev rfl hstate
  · exact .refl s

theorem section_checkpoint (s : System) {cp : Checkpoint} {bundleDigest : GoString} {steps : List GoString}
    (h : checkpoint sha256 s.coordinator bundleDigest steps now = .ok (cp, c)) :
    Section s { s with coordinator := c } := by
  simp only [checkpoint, guard_eq_ok_iff, Except.ok.injEq, Prod.mk.injEq, not_and, not_not] at h
  obtain ⟨-, hstate, -, rfl⟩ := h
  refine .work _ rfl rfl rfl rfl fun _ => ?_
  by_cases hrun : s.coordinator.state = .runningSource
  · simp [hrun, HandoverState.source]
  · simp [hstate hrun, HandoverState.source]

theorem transfer_eq_ok {target : RealmKind} (h : transfer c target = .ok c') :
    c.state = .prepared ∧ c' = { c with fence := c.fence + 1, state := .fenceAdvanced } := by
  simp only [transfer, guard_eq_ok_iff, Except.ok.injEq, not_not] at h
  obtain ⟨-, hprep, -, -, -, rfl⟩ := h
  exact ⟨hprep, rfl⟩

theorem section_resumeTarget (s : System) {r : Resume} {calls : List Call}
    (h : resumeTarget s.coordinator = .ok (r, c)) : Section s { s with coordinator := c, calls := calls } := by
  simp only [resumeTarget, guard_eq_ok_iff] at h
  obtain ⟨-, -, h⟩ := h
  split at h
  · cases h
  · simp only [guard_eq_ok_iff] at h
    obtain ⟨-, h⟩ := h
    split at h
    · cases h
    · cases h
      exact .work _ rfl rfl rfl rfl fun hs => by cases hs

theorem section_step (s : System) (e : Event) : Section s (step sha256 s e) := by
  cases e with
  | checkpoint bundleDigest steps now =>
    dsimp only [step]
    split
    · exact .refl s
    · next heq => exact section_checkpoint sha256 s heq
  | transfer target =>
    dsimp only [step]
    split
    · exact .refl s
    · next heq =>
      obtain ⟨hprep, rfl⟩ := transfer_eq_ok heq
      exact .transfer _ hprep rfl rfl rfl rfl rfl
  | resumeTarget =>
    dsimp only [step]
    split
    · exact .refl s
    · next heq => exact section_resumeTarget s heq
  | executed i result => exact section_executed s i result
  | commit i realm now =>
    dsimp only [step]
    split
    · exact section_commit s _ _ _ _ _ _
    · exact .refl s
  | commitUnderFence fence realm result now => exact section_commit s s.calls _ _ _ _ _
  | revoke => exact .revoke _ rfl rfl rfl rfl rfl
  | cleanup => exact .work _ rfl rfl rfl rfl id

end

/-- The completion is the one that was committed, under the current fence, and the source is past. -/
structure Sound (s : System) : Prop where
  recorded : s.recorded = s.coordinator.completion.toList
  settled : s.coordinator.completion ≠ none → s.coordinator.state.source = false
  current : ∀ r, s.coordinator.completion = some r → r.fence = s.coordinator.fence

variable {s t : System}

/-- The source states are left for good. -/
theorem Section.past (h : Section s t) (hs : s.coordinator.state.source = false) :
    t.coordinator.state.source = false := by
  cases h with
  | work _ _ _ _ hstate =>
    rw [← Bool.not_eq_true] at hs ⊢
    exact fun ht => hs (hstate ht)
  | transfer _ _ hstate | commit _ _ _ _ _ hstate | revoke _ hstate => rw [hstate]; rfl

/-- The fence moves while the source is prepared and at no other time. -/
theorem Section.fence_eq (h : Section s t) (hs : s.coordinator.state.source = false) :
    t.coordinator.fence = s.coordinator.fence := by
  cases h with
  | work hfence => exact hfence
  | transfer hprep =>
    rw [hprep] at hs
    cases hs
  | commit _ _ _ _ hfence | revoke hfence => exact hfence

theorem Section.sound (h : Section s t) (hs : Sound s) : Sound t := by
  have hpast : s.coordinator.completion ≠ none → t.coordinator.state.source = false := fun hc => h.past (hs.settled hc)
  have hfence : s.coordinator.completion ≠ none → t.coordinator.fence = s.coordinator.fence :=
    fun hc => h.fence_eq (hs.settled hc)
  have hkept : t.coordinator.completion = s.coordinator.completion → t.recorded = s.recorded → Sound t := by
    intro hcomp hrec
    refine ⟨by rw [hrec, hs.recorded, hcomp], fun hc => hpast (hcomp ▸ hc), fun r hr => ?_⟩
    rw [hcomp] at hr
    rw [hs.current r hr, hfence (by rw [hr]; simp)]
  cases h with
  | work _ hcomp _ hrec | transfer _ _ _ hcomp _ hrec => exact hkept hcomp hrec
  | commit receipt _ fresh current fence state completion _ recorded =>
    refine ⟨by rw [recorded, hs.recorded, fresh, completion]; rfl, fun _ => by rw [state]; rfl, fun r hr => ?_⟩
    rw [completion] at hr
    cases hr
    rw [current, fence]
  | revoke _ _ hcomp _ hrec => exact hkept hcomp hrec

theorem sound_start (taskID : GoString) : Sound (start taskID) := ⟨rfl, fun h => absurd rfl h, fun r h => by cases h⟩

/-- The fence is where it started, or it has moved once and the source is past. -/
def System.MovedOnce (s : System) : Prop :=
  s.coordinator.fence = 1 ∨ s.coordinator.fence = 2 ∧ s.coordinator.state.source = false

theorem Section.movedOnce (h : Section s t) (hs : s.MovedOnce) : t.MovedOnce := by
  rcases hs with hone | ⟨htwo, hpast⟩
  · cases h with
    | work hfence | commit _ _ _ _ hfence | revoke hfence => exact .inl (hfence.trans hone)
    | transfer _ hfence hstate => exact .inr ⟨by rw [hfence, hone]; rfl, by rw [hstate]; rfl⟩
  · exact .inr ⟨(h.fence_eq hpast).trans htwo, h.past hpast⟩

section Runs

variable (sha256 : GoString → GoString)

theorem run_append (s : System) (es es' : List Event) : run sha256 s (es ++ es') = run sha256 (run sha256 s es) es' :=
  List.foldl_append

variable {s : System}

/-- What every section keeps, a run keeps. -/
theorem run_keeps {P : System → Prop} (hP : ∀ s t, Section s t → P s → P t) (es : List Event) (hs : P s) :
    P (run sha256 s es) :=
  List.foldlRecOn es (step sha256) hs fun s hs e _ => hP s _ (section_step sha256 s e) hs

theorem sound_run (taskID : GoString) (es : List Event) : Sound (run sha256 (start taskID) es) :=
  run_keeps sha256 (fun _ _ h => h.sound) es (sound_start taskID)

/-- Once the source is past, the fence stays what it is. -/
theorem run_past (hs : s.coordinator.state.source = false) (es : List Event) :
    (run sha256 s es).coordinator.state.source = false ∧
      (run sha256 s es).coordinator.fence = s.coordinator.fence := by
  refine run_keeps sha256 (P := fun t => t.coordinator.state.source = false ∧ t.coordinator.fence = s.coordinator.fence)
    ?_ es ⟨hs, rfl⟩
  rintro t u h ⟨hpast, hfence⟩
  exact ⟨h.past hpast, (h.fence_eq hpast).trans hfence⟩

/-- A recorded completion stays recorded. -/
theorem run_recorded {r : CompletionReceipt} (hr : r ∈ s.recorded) (es : List Event) :
    r ∈ (run sha256 s es).recorded := by
  refine run_keeps sha256 (P := fun t => r ∈ t.recorded) ?_ es hr
  intro t u h ht
  cases h with
  | work _ _ _ hrec | transfer _ _ _ _ _ hrec => rwa [hrec]
  | commit _ _ _ _ _ _ _ _ hrec => rw [hrec]; exact List.mem_append_left _ ht
  | revoke _ _ _ _ hrec => rwa [hrec]

/-- Nothing is recorded in a revoked handover. -/
theorem run_revoked (hs : s.coordinator.revoked = true) (es : List Event) :
    (run sha256 s es).coordinator.revoked = true ∧ (run sha256 s es).recorded = s.recorded := by
  refine run_keeps sha256 (P := fun t => t.coordinator.revoked = true ∧ t.recorded = s.recorded) ?_ es ⟨hs, rfl⟩
  rintro t u h ⟨hrevoked, hrecorded⟩
  cases h with
  | work _ _ hrev hrec | transfer _ _ _ _ hrev hrec => exact ⟨hrev.trans hrevoked, hrec.trans hrecorded⟩
  | commit _ live => rw [hrevoked] at live; cases live
  | revoke _ _ _ hrev hrec => exact ⟨hrev, hrec.trans hrecorded⟩

theorem revoked_of_mem {es : List Event} (s : System) (h : Event.revoke ∈ es) :
    (run sha256 s es).coordinator.revoked = true := by
  obtain ⟨before, after, rfl⟩ := List.append_of_mem h
  rw [run_append]
  exact (run_revoked sha256 (s := step sha256 (run sha256 s before) .revoke) rfl after).1

/-- In every interleaving of the sections of the calls: at most one completion is recorded; its fence is the current
one when it is recorded and ever after; none is recorded after a `Revoke`; and after a successful `Transfer` a commit
under the fence the source had is refused, whatever happens in between. -/
theorem completion_once_under_current_fence (taskID : GoString) (before after : List Event) :
    let s := run sha256 (start taskID) before
    let t := run sha256 s after
    t.recorded.length ≤ 1 ∧
      (∀ r ∈ s.recorded, r ∈ t.recorded ∧ r.fence = s.coordinator.fence ∧ r.fence = t.coordinator.fence) ∧
      (Event.revoke ∈ before → t.recorded = s.recorded) ∧
      ∀ target c, transfer s.coordinator target = .ok c →
        let u := run sha256 (step sha256 s (.transfer target)) after
        ∀ realm attempt result now, ∃ e, commit u.coordinator s.coordinator.fence realm attempt result now =
          .error e := by
  intro s t
  have hs : Sound s := sound_run sha256 taskID before
  have ht : Sound t := run_keeps sha256 (fun _ _ h => h.sound) after hs
  refine ⟨?_, fun r hr => ?_, fun hrevoke => ?_, ?_⟩
  · rw [ht.recorded]
    cases t.coordinator.completion <;> simp
  · have hmem : r ∈ t.recorded := run_recorded sha256 hr after
    rw [hs.recorded, Option.mem_toList] at hr
    have hrt := hmem
    rw [ht.recorded, Option.mem_toList] at hrt
    exact ⟨hmem, hs.current r hr, ht.current r hrt⟩
  · exact (run_revoked sha256 (revoked_of_mem sha256 _ hrevoke) after).2
  · intro target c hc u realm attempt result now
    obtain ⟨hprep, rfl⟩ := transfer_eq_ok hc
    have hu : u.coordinator.fence = s.coordinator.fence + 1 := by
      have hstep : step sha256 s (.transfer target) =
          { s with coordinator :=
              { s.coordinator with fence := s.coordinator.fence + 1, state := .fenceAdvanced } } := by
        simp only [step, hc]
      have hpast : (step sha256 s (.transfer target)).coordinator.state.source = false := by rw [hstep]; rfl
      rw [(run_past sha256 hpast after).2, hstep]
    cases hcom : commit u.coordinator s.coordinator.fence realm attempt result now with
    | error e => exact ⟨e, rfl⟩
    | ok p =>
      obtain ⟨receipt, c'⟩ := p
      obtain ⟨-, hfence, -⟩ := commit_eq_ok hcom
      rw [hu] at hfence
      simp at hfence

/-- In every interleaving the fence moves once at most. After it has moved, no checkpoint of the source and no second
transfer is accepted, whatever happens. -/
theorem fence_moves_once (taskID : GoString) (before after : List Event) :
    let s := run sha256 (start taskID) before
    let t := run sha256 s after
    s.coordinator.fence = 1 ∨ s.coordinator.fence = 2 ∧ t.coordinator.fence = 2 ∧
      (∀ target, ∃ e, transfer t.coordinator target = .error e) ∧
      ∀ bundleDigest steps now, ∃ e, checkpoint sha256 t.coordinator bundleDigest steps now = .error e := by
  intro s t
  have hs : s.MovedOnce := run_keeps sha256 (fun _ _ h => h.movedOnce) before (.inl rfl)
  rcases hs with hone | ⟨htwo, hpast⟩
  · exact .inl hone
  obtain ⟨hpast, hfence⟩ : t.coordinator.state.source = false ∧ _ := run_past sha256 hpast after
  simp only [HandoverState.source, Bool.or_eq_false_iff, decide_eq_false_iff_not] at hpast
  refine .inr ⟨htwo, hfence.trans htwo, fun target => ?_, fun bundleDigest steps now => ?_⟩
  · cases h : transfer t.coordinator target with
    | error e => exact ⟨e, rfl⟩
    | ok c => exact absurd (transfer_eq_ok h).1 hpast.2
  · unfold checkpoint
    rw [if_pos hpast.1]
    split_ifs
    all_goals exact ⟨_, rfl⟩

end Runs

/-- A handover in which the target completes and the source tries to commit before and after it. -/
theorem completion_once_late_source :
    let s := run id (start (lit "t")) [.checkpoint (lit "b") [] 0]
    let events := [.resumeTarget, .executed 0 (some (lit "d")), .commitUnderFence 1 .realmLocal (lit "e") 1,
      .commit 0 .realmModal 2]
    let u := run id (step id s (.transfer .realmModal)) events
    u.recorded.map (·.fence) = [2] ∧
      ∀ realm attempt result now, ∃ e, commit u.coordinator 1 realm attempt result now = .error e := by
  intro s events u
  refine ⟨by decide +kernel, ?_⟩
  have hc : ∃ c, transfer s.coordinator .realmModal = .ok c := ⟨_, rfl⟩
  obtain ⟨c, hc⟩ := hc
  exact (completion_once_under_current_fence id (lit "t") [.checkpoint (lit "b") [] 0] events).2.2.2 .realmModal c hc

end CodeMemory.Handover
