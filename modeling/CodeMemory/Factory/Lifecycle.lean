import CodeMemory.Factory.Steps

/-! The lifecycles of runs, gates and candidates taken together: what holds of a
run after every history of commands, and what a continuation of the history
leaves as it was. -/

namespace CodeMemory.Factory

open Lib Lib.GoString Lib.GoMap

/-- The invariant that ties the three lifecycles of a run to each other. -/
structure Safe (r : Run) : Prop where
  roster : ∀ kind, ∃ id g, r.gates.lookup id = some g ∧ g.kind = kind ∧ g.required = true
  completed : r.state = some .completed → r.candidateState = some .retained
  retained : r.candidateState = some .retained → r.GatesPassed
  rejected : r.candidateState = some .rejected → r.rollback.isSome = true

/-- What a run keeps once a state of it is terminal. -/
structure Keeps (r r' : Run) : Prop where
  run : ∀ s, r.state = some s → terminalRunState s = true →
    r'.states = r.states ∧ r'.gates = r.gates ∧ r'.candidate = r.candidate ∧
      r'.candidateStates = r.candidateStates ∧ r'.rollback = r.rollback
  gate : ∀ id g s, r.gates.lookup id = some g → g.status = some s → terminalGateStatus s = true →
    r'.gates.lookup id = some g
  candidate : ∀ s, r.candidateState = some s → terminalCandidateState s = true →
    r'.candidateStates = r.candidateStates ∧ r'.candidate = r.candidate ∧ r'.rollback = r.rollback

theorem Keeps.refl (r : Run) : Keeps r r where
  run := fun _ _ _ => ⟨rfl, rfl, rfl, rfl, rfl⟩
  gate := fun _ _ _ h _ _ => h
  candidate := fun _ _ _ => ⟨rfl, rfl, rfl⟩

theorem Keeps.trans {r₁ r₂ r₃ : Run} (h₁ : Keeps r₁ r₂) (h₂ : Keeps r₂ r₃) : Keeps r₁ r₃ where
  run := by
    intro s hs hterm
    obtain ⟨hstates, hgates, hcand, hcstates, hroll⟩ := h₁.run s hs hterm
    have hs₂ : r₂.state = some s := by rw [Run.state, hstates]; exact hs
    obtain ⟨hstates', hgates', hcand', hcstates', hroll'⟩ := h₂.run s hs₂ hterm
    exact ⟨hstates'.trans hstates, hgates'.trans hgates, hcand'.trans hcand, hcstates'.trans hcstates,
      hroll'.trans hroll⟩
  gate := fun id g s hg hs hterm => h₂.gate id g s (h₁.gate id g s hg hs hterm) hs hterm
  candidate := by
    intro s hs hterm
    obtain ⟨hstates, hcand, hroll⟩ := h₁.candidate s hs hterm
    have hs₂ : r₂.candidateState = some s := by rw [Run.candidateState, hstates]; exact hs
    obtain ⟨hstates', hcand', hroll'⟩ := h₂.candidate s hs₂ hterm
    exact ⟨hstates'.trans hstates, hcand'.trans hcand, hroll'.trans hroll⟩

variable {r r' : Run}

theorem Admitted.safe (h : Admitted r) : Safe r where
  roster := h.roster
  completed := by simp [Run.state, h.states]
  retained := by simp [Run.candidateState, h.candidateStates]
  rejected := by simp [Run.candidateState, h.candidateStates]

theorem Run.Live.not_terminal (h : r.Live) {s : RunState} (hs : r.state = some s) : terminalRunState s = false := by
  obtain ⟨t, ht, hlive⟩ := h
  rw [hs] at ht
  cases ht
  exact hlive

theorem status_mem {g : Gate} {s : GateStatus} (h : g.status = some s) : s ∈ g.states :=
  List.mem_of_getLast? h

theorem RunStep.safe (hr : Safe r) (h : RunStep r r') : Safe r' := by
  cases h with
  | same => exact hr
  | advance current next state valid retained =>
    refine ⟨hr.roster, fun hdone => ?_, hr.retained, hr.rejected⟩
    have hnext : next = .completed := by simpa [Run.state] using hdone
    exact retained hnext
  | gate id g status live found unfinished =>
    refine ⟨fun kind => ?_, hr.completed, fun hret => ?_, hr.rejected⟩
    · obtain ⟨id', g', hg', hkind, hreq⟩ := hr.roster kind
      by_cases hid : id' = id
      · subst hid
        rw [found] at hg'
        cases hg'
        exact ⟨id', { g with states := g.states ++ [status] }, by rw [lookup_insert_eq, if_pos rfl],
          hkind, hreq⟩
      · exact ⟨id', g', by rw [lookup_insert_eq, if_neg hid, hg'], hkind, hreq⟩
    · -- a required gate has passed, so it is not the one that is still open
      have hpassed := hr.retained hret
      intro id' g' hg' hreq
      rw [lookup_insert_eq] at hg'
      split_ifs at hg'
      · cases hg'
        have hopen := unfinished _ (status_mem (hpassed id g found hreq))
        cases hopen
      · exact hpassed id' g' hg' hreq
  | propose c live unfinished =>
    refine ⟨hr.roster, fun hdone => ?_, fun hret => ?_, fun hrej => ?_⟩
    · have hlive := live.not_terminal hdone
      cases hlive
    · simp [Run.candidateState] at hret
    · simp [Run.candidateState] at hrej
  | candidate current next receipt live state valid gates rejected =>
    refine ⟨hr.roster, fun hdone => ?_, fun hret => ?_, fun hrej => ?_⟩
    · have hlive := live.not_terminal hdone
      cases hlive
    · have hnext : next = .retained := by simpa [Run.candidateState] using hret
      exact gates (by rw [hnext]; rfl)
    · have hnext : next = .rejected := by simpa [Run.candidateState] using hrej
      exact rejected hnext
  | issue id n l found fence => exact ⟨hr.roster, hr.completed, hr.retained, hr.rejected⟩

theorem KernelStep.safe (hr : Safe r) (h : KernelStep r r') : Safe r' := by
  cases h with
  | run _ h => exact h.safe hr
  | commit => exact ⟨hr.roster, hr.completed, hr.retained, hr.rejected⟩

theorem validRunTransition_source {s t : RunState} (h : validRunTransition s t = true) :
    terminalRunState s = false := by
  cases hs : terminalRunState s with
  | false => rfl
  | true => simp [validRunTransition, hs] at h

theorem validCandidateTransition_source {s t : CandidateState} (h : validCandidateTransition s t = true) :
    terminalCandidateState s = false := by
  cases hs : terminalCandidateState s with
  | false => rfl
  | true => simp [validCandidateTransition, hs] at h

theorem RunStep.keeps (h : RunStep r r') : Keeps r r' := by
  cases h with
  | same => exact .refl r
  | advance current next state valid retained =>
    refine ⟨fun s hs hterm => ?_, fun _ _ _ hg _ _ => hg, fun _ _ _ => ⟨rfl, rfl, rfl⟩⟩
    rw [state] at hs
    cases hs
    rw [validRunTransition_source valid] at hterm
    cases hterm
  | gate id g status live found unfinished =>
    refine ⟨fun s hs hterm => ?_, fun id' g' s hg' hs hterm => ?_, fun _ _ _ => ⟨rfl, rfl, rfl⟩⟩
    · rw [live.not_terminal hs] at hterm
      cases hterm
    · have hne : id' ≠ id := by
        rintro rfl
        rw [found] at hg'
        cases hg'
        rw [unfinished s (status_mem hs)] at hterm
        cases hterm
      rw [lookup_insert_eq, if_neg hne, hg']
  | propose c live unfinished =>
    refine ⟨fun s hs hterm => ?_, fun _ _ _ hg _ _ => hg, fun s hs hterm => ?_⟩
    · rw [live.not_terminal hs] at hterm
      cases hterm
    · rw [unfinished s (List.mem_of_getLast? hs)] at hterm
      cases hterm
  | candidate current next receipt live state valid gates rejected =>
    refine ⟨fun s hs hterm => ?_, fun _ _ _ hg _ _ => hg, fun s hs hterm => ?_⟩
    · rw [live.not_terminal hs] at hterm
      cases hterm
    · rw [state] at hs
      cases hs
      rw [validCandidateTransition_source valid] at hterm
      cases hterm
  | issue id n l found fence =>
    exact ⟨fun _ _ _ => ⟨rfl, rfl, rfl, rfl, rfl⟩, fun _ _ _ hg _ _ => hg, fun _ _ _ => ⟨rfl, rfl, rfl⟩⟩

theorem KernelStep.keeps (h : KernelStep r r') : Keeps r r' := by
  cases h with
  | run _ h => exact h.keeps
  | commit => exact ⟨fun _ _ _ => ⟨rfl, rfl, rfl, rfl, rfl⟩, fun _ _ _ hg _ _ => hg, fun _ _ _ => ⟨rfl, rfl, rfl⟩⟩

theorem keeps_of_steps (h : Relation.ReflTransGen KernelStep r r') : Keeps r r' := by
  induction h with
  | refl => exact .refl r
  | tail _ hstep ih => exact ih.trans hstep.keeps

theorem safe_run (cfg : Config) (history : List Command) : Ledger.All Safe (cfg.run history).runs :=
  Ledger.all_run (step_change cfg) (fun _ h => h.1.safe) (fun _ _ hr h => h.safe hr) (Ledger.all_empty Safe) history

/-- A completed run has a retained candidate, a retained candidate has all four required gates passed and a
rejected one its rollback receipt; and after any further commands the run still keeps every terminal state and,
once it is terminal itself, every gate result and candidate fact. -/
theorem lifecycle_composition (cfg : Config) (history : List Command) (key : RunKey) (r : Run)
    (hr : (cfg.run history).runs.lookup key = some r) :
    (r.state = some .completed → r.candidateState = some .retained) ∧
    (r.candidateState = some .retained →
      (∀ kind, ∃ id g, r.gates.lookup id = some g ∧ g.kind = kind ∧ g.required = true) ∧
      ∀ id g, r.gates.lookup id = some g → g.required = true → g.status = some .passed) ∧
    (r.candidateState = some .rejected → r.rollback.isSome = true) ∧
    ∀ later : List Command, ∃ r', (cfg.run (history ++ later)).runs.lookup key = some r' ∧ Keeps r r' := by
  have hsafe := safe_run cfg history key r hr
  refine ⟨hsafe.completed, fun hret => ⟨hsafe.roster, hsafe.retained hret⟩, hsafe.rejected, ?_⟩
  intro later
  obtain ⟨r', hr', hsteps⟩ := steps_run cfg history later hr
  exact ⟨r', hr', keeps_of_steps hsteps⟩

def examplePreview : Preview where
  changeSetID := lit "set"
  candidateState := some .proposed
  expectedBaseGitOID := exampleBase
  baseGitOID := exampleBase
  edits := [⟨lit "src/a.go", [], 1, some .add, none, some ⟨lit "sha256", List.replicate 64 0x61⟩⟩]
  obligations := [1]
  gates := GateKind.all.map (fun kind => ⟨lit "factory-gate", gateKindText kind, some kind, some .pending, true⟩)
  wellFormed := true
  encoding := some (lit "preview")

def exampleHistory : List Command :=
  let who := exampleIdentity
  let run := lit "run"
  exampleOpening ++ GateKind.all.map (fun kind => .recordGate who run (gateKindText kind) (some .passed)) ++
    [.propose who run (some examplePreview) (fun _ => some (lit "artifact"))] ++
    [CandidateState.applied, .verified, .reviewed, .retained].map
      (fun s => .transitionCandidate who run (some s) none) ++
    [RunState.review, .candidateReady, .completed].map (fun s => .transitionRun who run (some s))

theorem lifecycle_composition_completed :
    ∃ r, (exampleConfig.run exampleHistory).runs.lookup (exampleIdentity.run (lit "run")) = some r ∧
      r.state = some .completed ∧ r.candidateState = some .retained := by
  have h : ((exampleConfig.run exampleHistory).runs.lookup (exampleIdentity.run (lit "run"))).any
      (fun r => r.state = some .completed) = true := by decide +kernel
  obtain ⟨r, hr, hstate⟩ := (Option.any_eq_true _ _).mp h
  exact ⟨r, hr, of_decide_eq_true hstate,
    (lifecycle_composition exampleConfig exampleHistory _ r hr).1 (of_decide_eq_true hstate)⟩

end CodeMemory.Factory
