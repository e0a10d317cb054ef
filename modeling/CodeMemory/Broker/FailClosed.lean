import CodeMemory.Broker.Runner
import CodeMemory.Broker.Scopes

/-! A leaf run fails closed. What one run keeps to is its own matter (`Run.Sound`); what
the runs on a store owe each other is said of the whole system (`System.Closed`), and
both are carried from step to step. -/

namespace CodeMemory.Broker

open Lib Lib.GoString Lib.Path Capability List

/-- Every answer of the authorizer was a grant, and every staged edit got one when it was proposed. -/
structure Ready (staged : List Edit) (calls : List Note) : Prop where
  granted : ∀ n ∈ calls, ∃ ask, n = .authorize ask none
  proposed : ∀ e ∈ staged, .authorize (.propose e) none ∈ calls

/-- Edits applied in order, each right after it was authorized. -/
def performed (edits : List Edit) : List Note := edits.flatMap fun e => [.authorize (.mutate e) none, .applied e]

/-- The run has gone through its calls without a denial and has performed the first `i` of its edits. -/
def Run.Performed (run : Run) (i : ℕ) (more : List Note) : Prop :=
  ∃ calls, Ready run.staged calls ∧ run.trace = calls ++ performed (run.staged.take i) ++ more

/-- All edits of the run were authorized when proposed and again immediately before they were applied. -/
def Run.AppliedAll (run : Run) : Prop := ∃ calls, Ready run.staged calls ∧ run.trace = calls ++ performed run.staged

def Run.Made (run : Run) : Prop := run.candidate = some run.id

/-- What holds of a run in each of its phases. -/
def Run.Sound (run : Run) : Prop :=
  match run.phase with
  | .beginning => run.candidate = none ∧ run.denials = [] ∧ Ready run.staged run.trace
  | .hydrating => run.Made ∧ run.denials = [] ∧ Ready run.staged run.trace
  | .synthesizing => run.Made ∧ (run.denials = [] → ∀ n ∈ run.trace, ∃ ask, n = .authorize ask none) ∧
      ∀ e ∈ run.staged, .authorize (.propose e) none ∈ run.trace
  | .discarding .. | .rejecting | .removing | .failing .. => run.Made
  | .applying | .validated | .replaying _ | .waiting => run.Made ∧ Ready run.staged run.trace
  | .mutating i => run.Made ∧ run.Performed i []
  | .authorized i => run.Made ∧ ∃ e, run.staged[i]? = some e ∧ run.Performed i [.authorize (.mutate e) none]
  | .recording outcome err => run.Made ∧ outcome.candidateID = run.id ∧
      (err = none → outcome.state = .applied ∧ run.AppliedAll) ∧ (err ≠ none → outcome.state = .rejected)
  | .finished result err => result.state = some .completed → err = none ∧ (run.AppliedAll ∨ Ready run.staged run.trace)

/-- What holds of a run whose phase is known. -/
theorem Run.Sound.on {run : Run} {phase : Phase} (h : run.Sound) (hphase : run.phase = phase) :
    ({ run with phase := phase } : Run).Sound := hphase ▸ h

/-- A run in `Begin` has no candidate yet. -/
theorem Run.Sound.fresh {run : Run} (h : run.Sound) (hphase : run.phase = .beginning) : run.candidate = none :=
  And.left (h.on hphase)

section Sound

variable {cfg : StoreConfig} {sh sh' : Shared} {run run' : Run} {act : Act} {i : ℕ}

theorem performed_append (edits edits' : List Edit) :
    performed (edits ++ edits') = performed edits ++ performed edits' :=
  flatMap_append

theorem Run.Performed.next {e : Edit} (he : run.staged[i]? = some e)
    (h : run.Performed i [.authorize (.mutate e) none]) : (run.note (.applied e)).Performed (i + 1) [] := by
  obtain ⟨calls, hready, htrace⟩ := h
  refine ⟨calls, hready, ?_⟩
  have htake : run.staged.take (i + 1) = run.staged.take i ++ [e] := by
    rw [take_add_one, he, Option.toList_some]
  change run.trace ++ [.applied e] = calls ++ performed (run.staged.take (i + 1)) ++ []
  rw [htrace, htake, performed_append]
  simp [performed]

theorem Run.Performed.all (hi : run.staged.length ≤ i) (h : run.Performed i []) : run.AppliedAll := by
  obtain ⟨calls, hready, htrace⟩ := h
  rw [take_of_length_le hi, append_nil] at htrace
  exact ⟨calls, hready, htrace⟩

/-- Either way no authorization was denied and every staged edit was authorized when proposed. -/
theorem granted_of_applied_or_ready (h : run.AppliedAll ∨ Ready run.staged run.trace) :
    (∀ ask denied, .authorize ask denied ∈ run.trace → denied = none) ∧
      ∀ e ∈ run.staged, .authorize (.propose e) none ∈ run.trace := by
  have hready : ∀ {calls ask denied}, Ready run.staged calls → .authorize ask denied ∈ calls → denied = none := by
    intro calls ask denied hready hmem
    obtain ⟨ask', heq⟩ := hready.granted _ hmem
    cases heq
    rfl
  rcases h with ⟨calls, hcalls, htrace⟩ | hcalls
  · rw [htrace]
    refine ⟨fun ask denied hmem => ?_, fun e he => mem_append_left _ (hcalls.proposed e he)⟩
    rcases mem_append.mp hmem with hmem | hmem
    · exact hready hcalls hmem
    · obtain ⟨e, -, hmem⟩ := mem_flatMap.mp hmem
      rcases mem_pair.mp hmem with heq | heq
      · cases heq
        rfl
      · cases heq
  · exact ⟨fun ask denied hmem => hready hcalls hmem, hcalls.proposed⟩

/-- A run that is not going to report COMPLETED owes nothing any more. -/
theorem Run.sound_failClosed {outcome : Option Outcome} {rollback : Option RollbackReceipt}
    {denials : List DenialRecord} {err : Option RunError} : (run.failClosed outcome rollback denials err).Sound :=
  fun h => by cases h

section

variable (hphase : run.phase = .synthesizing)
include hphase

theorem Run.sound_answered {ask : Ask} {action path : GoString} {denied : Option Reason}
    (h : run.Sound) : (run.answered ask action path denied).Sound := by
  obtain ⟨hmade, hgranted, hprop⟩ := h.on hphase
  unfold Run.Sound
  cases denied with
  | none =>
    simp only [Run.answered, Run.note, hphase]
    refine ⟨hmade, fun hdenials n hn => ?_, fun e he => mem_append_left _ (hprop e he)⟩
    rcases mem_append.mp hn with hn | hn
    · exact hgranted hdenials n hn
    · exact ⟨ask, mem_singleton.mp hn⟩
  | some reason =>
    simp only [Run.answered, Run.note, Run.deny, hphase]
    refine ⟨hmade, fun hdenials => ?_, fun e he => mem_append_left _ (hprop e he)⟩
    simp at hdenials

theorem Run.sound_propose {e : Edit} {denied : Option Reason} (h : run.Sound) :
    (run.propose cfg e denied).Sound := by
  have hans : (run.answered (.propose e) actionFileWrite e.path denied).Sound := Run.sound_answered hphase h
  unfold Run.propose
  split_ifs with hvalid hden
  · obtain ⟨hmade, -, hprop⟩ := h.on hphase
    unfold Run.Sound
    simp only [Run.deny, hphase]
    exact ⟨hmade, fun hdenials => by simp at hdenials, hprop⟩
  · subst hden
    simp only [Run.answered, Run.note, hphase] at hans ⊢
    refine ⟨hans.1, hans.2.1, forall_mem_append.mpr ⟨hans.2.2, fun e' he' => ?_⟩⟩
    simp [mem_singleton.mp he']
  · exact hans

theorem Run.sound_synthesized {failure : Option DenialCode} (h : run.Sound) :
    (run.synthesized cfg failure).Sound := by
  obtain ⟨hmade, hgranted, hprop⟩ := h.on hphase
  unfold Run.synthesized
  dsimp only
  split_ifs with hdenials hstaged
  · exact hmade
  · exact hmade
  · refine ⟨hmade, hgranted ?_, hprop⟩
    simp only [ne_eq, not_not, append_eq_nil_iff] at hdenials
    exact hdenials.1

end

theorem Run.sound_enterApply (hphase : run.phase = .applying) (h : run.Sound) : (run.enterApply cfg).Sound := by
  have hmade := And.left (h.on hphase)
  unfold Run.enterApply
  split_ifs
  · exact hmade
  · exact (h.on hphase :)
  · exact hmade

/-- A recorded answer gives COMPLETED only to a run whose calls were all granted. -/
theorem Run.sound_replayed (run : Run) {rec : RecordedOutcome} (hmade : run.Made)
    (hready : Ready run.staged run.trace) : (run.replayed cfg rec).Sound := by
  unfold Run.replayed
  cases rec.answer (run.requestDigest cfg) with
  | error err => exact hmade
  | ok outcome =>
    dsimp only
    split_ifs
    · exact fun _ => ⟨rfl, .inr hready⟩
    · exact Run.sound_failClosed

theorem Run.sound_reported {outcome : Outcome} {err : Option CandidateError}
    (hphase : run.phase = .recording outcome err) (h : run.Sound) : (run.reported outcome err).Sound := by
  obtain ⟨-, -, happ, -⟩ := h.on hphase
  unfold Run.reported
  split
  · exact fun _ => ⟨rfl, .inl (happ rfl).2⟩
  · exact Run.sound_failClosed
  · exact Run.sound_failClosed

end Sound

/-- The run has entered its application in the records (or has come to its end). -/
def Phase.inserted : Phase → Bool
  | .waiting | .mutating _ | .authorized _ | .failing .. | .recording .. | .finished .. => true
  | _ => false

/-- The run does not report COMPLETED and has removed its candidate. -/
def Phase.withdrawn : Phase → Bool
  | .recording _ err => err.isSome
  | .finished result _ => result.state ≠ some .completed
  | _ => false

def Phase.plain : Phase → Bool
  | .replaying _ => false
  | .finished result _ => result.state ≠ some .completed
  | _ => true

/-- The kinds of steps, by what they do to the directories and the records. -/
inductive Effect (cfg : StoreConfig) (sh : Shared) (run : Run) : Shared → Run → Prop where
  | quiet {locked : Bool} {run' : Run} (candidate : run'.candidate = run.candidate)
      (removed : run'.removed = run.removed)
      (plain : run'.phase.plain = true) (inserted : run.phase.inserted = true → run'.phase.inserted = true)
      (withdrawn : run'.phase.withdrawn = true → run.phase = .beginning) :
        Effect cfg sh run { sh with locked := locked } run'
  | refused {id : GoString} {run' : Run} (phase : run.phase = .beginning) (candidate : run'.candidate = run.candidate)
      (removed : run'.removed = run.removed) (plain : run'.phase.plain = true) (inserted : run'.phase.inserted = true) :
      Effect cfg sh run { sh with drawn := sh.drawn ++ [id] } run'
  | created {id : GoString} (nonempty : id ≠ []) (phase : run.phase = .beginning) :
      Effect cfg sh run { sh with drawn := sh.drawn ++ [id], dirs := insert id sh.dirs }
        { run with candidate := some id, phase := .hydrating }
  | removed {locked : Bool} {run' : Run} (candidate : run'.candidate = run.candidate)
      (removed : run'.removed = run.removed ++ run.candidate.toList) (plain : run'.phase.plain = true)
      (inserted : run'.phase.inserted = true) : Effect cfg sh run { sh.removeAll run with locked := locked } run'
  | found {rec : RecordedOutcome} (phase : run.phase = .validated)
      (record : sh.seen.lookup (replayKey run.request) = some rec) : Effect cfg sh run sh (run.goto (.replaying rec))
  | inserted (phase : run.phase = .validated) :
      Effect cfg sh run { sh with seen := sh.seen.insert (replayKey run.request) ⟨run.requestDigest cfg, none, run.id⟩ }
        (run.goto .waiting)
  | replayed {rec : RecordedOutcome} (phase : run.phase = .replaying rec) (unused : rec.unused run.id = true) :
      Effect cfg sh run (sh.removeAll run) (run.removeAll.replayed cfg rec)
  | kept {rec : RecordedOutcome} (phase : run.phase = .replaying rec) (used : rec.unused run.id = false) :
      Effect cfg sh run sh (run.replayed cfg rec)
  | recorded {outcome : Outcome} {err : Option CandidateError} (phase : run.phase = .recording outcome err) :
      Effect cfg sh run (sh.record cfg run outcome) (run.reported outcome err)

section Effect

variable {cfg : StoreConfig} {sh sh' : Shared} {run run' : Run} {act : Act} {i : ℕ}

/-- A step that only goes on to another phase. -/
theorem Effect.move {phase : Phase} (locked : Bool) (plain : phase.plain = true)
    (inserted : run.phase.inserted = true → phase.inserted = true) (withdrawn : phase.withdrawn = false)
    (hrun' : run'.candidate = run.candidate ∧
      run'.removed = run.removed ∧ run'.phase = phase) : Effect cfg sh run { sh with locked := locked } run' := by
  obtain ⟨hcand, hrem, rfl⟩ := hrun'
  exact .quiet hcand hrem plain inserted (by simp [withdrawn])

theorem Run.answered_same (run : Run) {ask : Ask} {action path : GoString} {denied : Option Reason} :
    (run.answered ask action path denied).candidate = run.candidate ∧
      (run.answered ask action path denied).removed = run.removed ∧
      (run.answered ask action path denied).phase = run.phase := by
  cases denied <;> exact ⟨rfl, rfl, rfl⟩

theorem Run.propose_same {e : Edit} {denied : Option Reason} :
    (run.propose cfg e denied).candidate = run.candidate ∧ (run.propose cfg e denied).removed = run.removed ∧
      (run.propose cfg e denied).phase = run.phase := by
  unfold Run.propose
  split_ifs
  · exact ⟨rfl, rfl, rfl⟩
  · exact Run.answered_same run
  · exact Run.answered_same run

/-- A step has one of the effects, and keeps the run to what it owes. -/
def Advances (cfg : StoreConfig) (sh : Shared) (run : Run) (sh' : Shared) (run' : Run) : Prop :=
  Effect cfg sh run sh' run' ∧ (run.Sound → run'.Sound)

theorem Advances.failClosed {locked : Bool} {outcome : Option Outcome} {rollback : Option RollbackReceipt}
    {denials : List DenialRecord} {err : Option RunError} :
    Advances cfg sh run { sh.removeAll run with locked := locked }
      (run.removeAll.failClosed outcome rollback denials err) :=
  ⟨.removed rfl rfl rfl rfl, fun _ => Run.sound_failClosed⟩

theorem Shared.advances_proceed (h : sh.proceed cfg run = some (sh', run')) : Advances cfg sh run sh' run' := by
  cases hphase : run.phase <;> simp only [Shared.proceed, hphase, reduceCtorEq] at h
  case discarding =>
    split_ifs at h
    cases h
    exact .failClosed
  case applying =>
    cases h
    refine ⟨?_, Run.sound_enterApply hphase⟩
    unfold Run.enterApply
    split_ifs <;> exact .move sh.locked rfl (by simp [hphase, Phase.inserted]) rfl ⟨rfl, rfl, rfl⟩
  case rejecting =>
    split_ifs at h <;> cases h <;>
      exact ⟨.move sh.locked rfl (by simp [hphase, Phase.inserted]) rfl ⟨rfl, rfl, rfl⟩, fun hs => (hs.on hphase :)⟩
  case removing =>
    cases h
    exact .failClosed
  case validated =>
    simp only [Option.some.injEq, Shared.lookup] at h
    split at h
    · next rec hrec =>
      cases h
      exact ⟨.found hphase hrec, fun hs => (hs.on hphase :)⟩
    · cases h
      exact ⟨.inserted hphase, fun hs => (hs.on hphase :)⟩
  case replaying =>
    split_ifs at h with hunused
    · cases h
      exact ⟨.replayed hphase hunused, fun hs => And.elim (Run.sound_replayed run.removeAll) (hs.on hphase)⟩
    · cases h
      exact ⟨.kept hphase (Bool.eq_false_iff.mpr hunused), fun hs => And.elim (Run.sound_replayed run) (hs.on hphase)⟩
  case waiting =>
    split_ifs at h
    cases h
    refine ⟨.move true rfl (fun _ => rfl) rfl ⟨rfl, rfl, rfl⟩, fun hs => ?_⟩
    obtain ⟨hmade, hready⟩ := hs.on hphase
    exact ⟨hmade, run.trace, hready, by simp [performed, Run.goto]⟩
  case failing =>
    cases h
    exact ⟨.removed rfl rfl rfl rfl, fun hs => ⟨hs.on hphase, rfl, by simp, fun _ => rfl⟩⟩
  case recording =>
    cases h
    exact ⟨.recorded hphase, Run.sound_reported hphase⟩

theorem Shared.advances_mutate (hphase : run.phase = .mutating i) (h : sh.mutate cfg run i act = some (sh', run')) :
    Advances cfg sh run sh' run' := by
  cases act <;> simp only [Shared.mutate, reduceCtorEq] at h
  case cancelled =>
    split_ifs at h
    cases h
    exact ⟨.move sh.locked rfl (fun _ => rfl) rfl ⟨rfl, rfl, rfl⟩, fun hs => And.left (hs.on hphase)⟩
  case authorize denied =>
    obtain ⟨e, he, heq⟩ := Option.map_eq_some_iff.mp h
    cases heq
    cases denied with
    | some reason => exact ⟨.move sh.locked rfl (fun _ => rfl) rfl ⟨rfl, rfl, rfl⟩, fun hs => And.left (hs.on hphase)⟩
    | none =>
      refine ⟨.move sh.locked rfl (fun _ => rfl) rfl ⟨rfl, rfl, rfl⟩, fun hs => ?_⟩
      obtain ⟨hmade, calls, hready, htrace⟩ := hs.on hphase
      refine ⟨hmade, e, he, calls, hready, ?_⟩
      change run.trace ++ [_] = _
      rw [show run.trace = _ from htrace, append_nil]
      rfl
  case checked facts =>
    split_ifs at h with hi
    cases facts with
    | error err =>
      cases h
      exact ⟨.move sh.locked rfl (fun _ => rfl) rfl ⟨rfl, rfl, rfl⟩, fun hs => And.left (hs.on hphase)⟩
    | ok facts =>
      cases h
      refine ⟨.move false rfl (fun _ => rfl) rfl ⟨rfl, rfl, rfl⟩, fun hs => ?_⟩
      obtain ⟨hmade, hperf⟩ := hs.on hphase
      exact ⟨hmade, rfl, fun _ => ⟨rfl, hperf.all (not_lt.mp hi)⟩, fun h => absurd rfl h⟩

theorem Shared.advances (h : sh.advance cfg run act = some (sh', run')) : Advances cfg sh run sh' run' := by
  cases hphase : run.phase
  case mutating => exact Shared.advances_mutate hphase (by simpa only [Shared.advance, hphase] using h)
  all_goals cases act <;> simp only [Shared.advance, hphase, reduceCtorEq] at h
  case beginning.beginFails =>
    cases h
    exact ⟨.quiet rfl rfl rfl (fun _ => rfl) (fun _ => hphase), fun _ => Run.sound_failClosed⟩
  case beginning.mkdir =>
    simp only [Option.some.injEq, Shared.mkdir] at h
    split_ifs at h <;> cases h
    · exact ⟨.refused hphase rfl rfl rfl rfl, fun _ => Run.sound_failClosed⟩
    · exact ⟨.created (by simp [candidateID, lit]) hphase, fun hs => ⟨rfl, And.right (hs.on hphase)⟩⟩
  case hydrating.hydrated =>
    split_ifs at h <;> cases h
    · refine ⟨.move sh.locked rfl (by simp [hphase, Phase.inserted]) rfl ⟨rfl, rfl, rfl⟩, fun hs => ?_⟩
      obtain ⟨hmade, -, hready⟩ := hs.on hphase
      exact ⟨hmade, fun _ => hready.granted, hready.proposed⟩
    · exact .failClosed
  case synthesizing.propose =>
    cases h
    exact ⟨.move sh.locked (by rw [hphase]; rfl) id (by rw [hphase]; rfl) Run.propose_same, Run.sound_propose hphase⟩
  case synthesizing.readFile | synthesizing.requestEffect =>
    cases h
    exact ⟨.move sh.locked (by rw [hphase]; rfl) id (by rw [hphase]; rfl) (Run.answered_same run),
      Run.sound_answered hphase⟩
  case synthesizing.returned =>
    cases h
    refine ⟨?_, Run.sound_synthesized hphase⟩
    unfold Run.synthesized
    dsimp only
    split_ifs <;> exact .move sh.locked rfl (by simp [hphase, Phase.inserted]) rfl ⟨rfl, rfl, rfl⟩
  case authorized.applyOne failure =>
    obtain ⟨e, he, heq⟩ := Option.map_eq_some_iff.mp h
    cases failure <;> cases heq <;> refine ⟨.move sh.locked rfl (fun _ => rfl) rfl ⟨rfl, rfl, rfl⟩, fun hs => ?_⟩
    · obtain ⟨hmade, e', he', hperf⟩ := hs.on hphase
      obtain rfl : e = e' := Option.some.inj (he.symm.trans he')
      exact ⟨hmade, Run.Performed.next he hperf⟩
    · exact And.left (hs.on hphase)
  all_goals exact Shared.advances_proceed h

end Effect

def RecordedOutcome.candidate (rec : RecordedOutcome) : GoString :=
  rec.outcome.elim rec.inFlightCandidate Outcome.candidateID

def Phase.isFinished : Phase → Bool
  | .finished .. => true
  | _ => false

section Common

variable {cfg : StoreConfig} {sh sh' : Shared} {run run' : Run} {act : Act} {rec : RecordedOutcome}

theorem Shared.advance_finished (h : run.phase.isFinished = true) : sh.advance cfg run act = none := by
  cases hphase : run.phase with
  | finished result err => cases act <;> simp [Shared.advance, Shared.proceed, hphase]
  | _ => simp [hphase, Phase.isFinished] at h

theorem Run.replayed_same (cfg : StoreConfig) (run : Run) (rec : RecordedOutcome) :
    (run.replayed cfg rec).candidate = run.candidate ∧ (run.replayed cfg rec).removed = run.removed ∧
    (run.replayed cfg rec).requestDigest cfg = run.requestDigest cfg := by
  unfold Run.replayed
  cases rec.answer (run.requestDigest cfg) with
  | error err => exact ⟨rfl, rfl, rfl⟩
  | ok outcome =>
    dsimp only
    split_ifs <;> exact ⟨rfl, rfl, rfl⟩

theorem Run.replayed_phase : ∀ rec', (run.replayed cfg rec).phase ≠ .replaying rec' := by
  intro rec'
  unfold Run.replayed
  cases rec.answer (run.requestDigest cfg) with
  | error err => exact fun h => by cases h
  | ok outcome =>
    dsimp only
    split_ifs <;> exact fun h => by cases h

variable {result : RunResult} {outcome : Outcome} {err : Option CandidateError}

/-- A replay reports COMPLETED only for a recorded application of the same request. -/
theorem Run.replayed_completed {err : Option RunError}
    (h : (run.replayed cfg rec).phase = .finished result err) (hstate : result.state = some .completed) :
    ∃ outcome, rec.outcome = some outcome ∧ result.outcome = some outcome ∧ outcome.state = .applied ∧
      rec.requestDigest = run.requestDigest cfg := by
  unfold Run.replayed RecordedOutcome.answer at h
  cases hout : rec.outcome with
  | none =>
    rw [hout] at h
    cases h
  | some outcome =>
    rw [hout] at h
    dsimp only at h
    by_cases hdig : rec.requestDigest = run.requestDigest cfg
    · rw [if_neg (not_not.mpr hdig)] at h
      dsimp only at h
      split_ifs at h with happ
      · cases h
        exact ⟨outcome, rfl, rfl, happ, hdig⟩
      · cases h
        cases hstate
    · rw [if_pos hdig] at h
      cases h

theorem Run.reported_same (cfg : StoreConfig) (run : Run) (outcome : Outcome) (err : Option CandidateError) :
    (run.reported outcome err).candidate = run.candidate ∧ (run.reported outcome err).removed = run.removed ∧
      (run.reported outcome err).phase.isFinished = true ∧
      (run.reported outcome err).requestDigest cfg = run.requestDigest cfg ∧
      ((run.reported outcome err).AppliedAll ↔ run.AppliedAll) := by
  unfold Run.reported
  split <;> exact ⟨rfl, rfl, rfl, rfl, Iff.rfl⟩

theorem Run.reported_withdrawn : (run.reported outcome err).phase.withdrawn = err.isSome := by
  unfold Run.reported
  split <;> rfl

theorem Run.reported_completed {err' : Option RunError}
    (h : (run.reported outcome err).phase = .finished result err') (hstate : result.state = some .completed) :
    err = none ∧ result.outcome = some outcome := by
  unfold Run.reported at h
  split at h
  · cases h
    exact ⟨rfl, rfl⟩
  · cases h
    cases hstate
  · cases h
    cases hstate

theorem RecordedOutcome.unused_of_ne {id : GoString} (hid : id ≠ []) (hne : id ≠ rec.candidate)
    (hflight : ∀ outcome, rec.outcome = some outcome → rec.inFlightCandidate = []) : rec.unused id = true := by
  cases hout : rec.outcome with
  | none => simpa [RecordedOutcome.unused, RecordedOutcome.candidate, hout, hid] using hne
  | some outcome => simpa [RecordedOutcome.unused, RecordedOutcome.candidate, hout, hflight outcome hout, hid] using hne

namespace Effect

section

variable (h : Effect cfg sh run sh' run')
include h

/-- A run gets its candidate once, with an id that it draws. -/
theorem candidate_eq (hs : run.Sound) :
    run'.candidate = run.candidate ∨ ∃ id, run.candidate = none ∧ run'.candidate = some id ∧ id ≠ [] ∧
      sh'.drawn = sh.drawn ++ [id] := by
  cases h with
  | quiet hcand | refused _ hcand => exact .inl hcand
  | created hid hphase => exact .inr ⟨_, hs.fresh hphase, rfl, hid, rfl⟩
  | removed hcand => exact .inl hcand
  | found | inserted => exact .inl rfl
  | replayed => exact .inl (Run.replayed_same cfg run.removeAll _).1
  | kept => exact .inl (Run.replayed_same cfg run _).1
  | recorded => exact .inl (Run.reported_same cfg run _ _).1

theorem drawn_grows : sh.drawn <+: sh'.drawn := by
  cases h with
  | refused | created => exact prefix_append _ _
  | _ => exact prefix_rfl

/-- A directory that is new is the one of a candidate just drawn. -/
theorem mem_dirs {d : GoString} (hd : d ∈ sh'.dirs) :
    d ∈ sh.dirs ∨ sh'.drawn = sh.drawn ++ [d] := by
  cases h with
  | created =>
    rcases Finset.mem_insert.mp hd with rfl | hd
    · exact .inr rfl
    · exact .inl hd
  | removed | replayed => exact .inl (Finset.mem_filter.mp hd).1
  | _ => exact .inl hd

theorem mem_removed {id : GoString} (hid : id ∈ run'.removed) :
    id ∈ run.removed ∨ run.candidate = some id := by
  have happ : id ∈ run.removed ++ run.candidate.toList → id ∈ run.removed ∨ run.candidate = some id := by
    intro hmem
    rcases mem_append.mp hmem with hmem | hmem
    · exact .inl hmem
    · exact .inr (Option.mem_toList.mp hmem)
  cases h with
  | quiet _ hrem | refused _ _ hrem => exact .inl (hrem ▸ hid)
  | created => exact .inl hid
  | removed _ hrem => exact happ (hrem ▸ hid)
  | found | inserted => exact .inl hid
  | replayed =>
    rw [(Run.replayed_same cfg run.removeAll _).2.1] at hid
    exact happ hid
  | kept => exact .inl ((Run.replayed_same cfg run _).2.1 ▸ hid)
  | recorded => exact .inl ((Run.reported_same cfg run _ _).2.1 ▸ hid)

theorem inserted_mono (hrun : run.phase.inserted = true) : run'.phase.inserted = true := by
  cases h with
  | quiet _ _ _ hins => exact hins hrun
  | refused _ _ _ _ hins => exact hins
  | created _ hphase => simp [hphase, Phase.inserted] at hrun
  | removed _ _ _ hins => exact hins
  | found hphase => simp [hphase, Phase.inserted] at hrun
  | inserted => rfl
  | replayed hphase | kept hphase => simp [hphase, Phase.inserted] at hrun
  | recorded =>
    unfold Run.reported
    split <;> rfl

end

end Effect

end Common

namespace System

variable (cfg : StoreConfig) (s : System)

/-- Some run applied all edits of the request in the candidate, and has come to its end. -/
def AppliedBy (id : GoString) (digest : Digest) : Prop :=
  ∃ r run, s.runs r = some run ∧ run.candidate = some id ∧ run.phase.isFinished = true ∧ run.AppliedAll ∧
    run.requestDigest cfg = digest

/-- The record is of a run that entered it, and an applied outcome is of one that applied it. -/
structure Known (rec : RecordedOutcome) : Prop where
  owner : ∃ r run, s.runs r = some run ∧ run.candidate = some rec.candidate ∧ run.phase.inserted = true
  flight : ∀ outcome, rec.outcome = some outcome → rec.inFlightCandidate = []
  applied : ∀ outcome, rec.outcome = some outcome → outcome.state = .applied →
    s.AppliedBy cfg outcome.candidateID rec.requestDigest

/-- What holds whenever no step is under way. -/
structure Closed : Prop where
  sound : ∀ r run, s.runs r = some run → run.Sound
  drawn : ∀ r run id, s.runs r = some run → run.candidate = some id → id ≠ [] ∧ id ∈ s.shared.drawn
  unique : ∀ r r' run run' id, s.runs r = some run → s.runs r' = some run' → run.candidate = some id →
    run'.candidate = some id → r = r'
  removed : ∀ r run id, s.runs r = some run → id ∈ run.removed → run.candidate = some id
  gone : ∀ r run id, s.runs r = some run → run.phase.withdrawn = true → run.candidate = some id → id ∉ s.shared.dirs
  records : ∀ key rec, s.shared.seen.lookup key = some rec → s.Known cfg rec
  replaying : ∀ r run rec, s.runs r = some run → run.phase = .replaying rec → s.Known cfg rec
  completed : ∀ r run result err, s.runs r = some run → run.phase = .finished result err →
    result.state = some .completed →
    ∃ outcome, result.outcome = some outcome ∧ s.AppliedBy cfg outcome.candidateID (run.requestDigest cfg)

/-- The runs of one system go on in the other: they keep their candidates and records, and do not change when
finished. -/
def Later (s' : System) : Prop :=
  ∀ r run, s.runs r = some run → ∃ run', s'.runs r = some run' ∧
    (run.candidate ≠ none → run'.candidate = run.candidate) ∧
    (run.phase.inserted = true → run'.phase.inserted = true) ∧ (run.phase.isFinished = true → run' = run)

variable {cfg s}

variable {s' : System} {sh : Shared} {r : ℕ} {run : Run}

theorem AppliedBy.mono {id : GoString} {digest : Digest} (h : s.AppliedBy cfg id digest) (hlater : s.Later s') :
    s'.AppliedBy cfg id digest := by
  obtain ⟨r, run, hrun, hcand, hfin, happ, hdig⟩ := h
  obtain ⟨run', hrun', -, -, hsame⟩ := hlater r run hrun
  obtain rfl := hsame hfin
  exact ⟨r, run', hrun', hcand, hfin, happ, hdig⟩

theorem Known.mono {rec : RecordedOutcome} (h : s.Known cfg rec) (hlater : s.Later s') : s'.Known cfg rec := by
  obtain ⟨r, run, hrun, hcand, hins⟩ := h.owner
  obtain ⟨run', hrun', hkeeps, hmono, -⟩ := hlater r run hrun
  have hsame : run'.candidate = run.candidate := hkeeps (by simp [hcand])
  exact ⟨⟨r, run', hrun', hsame.trans hcand, hmono hins⟩, h.flight,
    fun outcome ho hstate => (h.applied outcome ho hstate).mono hlater⟩

/-- One run of the system is put in the place of another, or added. -/
def put (s : System) (sh : Shared) (r : ℕ) (run : Run) : System := ⟨sh, Function.update s.runs r (some run)⟩

theorem runs_put {r' : ℕ} {run' : Run} (h : (s.put sh r run).runs r' = some run') :
    r' = r ∧ run' = run ∨ r' ≠ r ∧ s.runs r' = some run' := by
  simp only [put, Function.update_apply] at h
  split_ifs at h with hr
  · exact .inl ⟨hr, (Option.some.inj h).symm⟩
  · exact .inr ⟨hr, h⟩

theorem runs_put_self : (s.put sh r run).runs r = some run := Function.update_self ..

section Step

variable {sh' : Shared} {r : ℕ} {run run' : Run} {act : Act}

theorem later_put (hrun : s.runs r = some run) (hs : run.Sound)
    (hact : s.shared.advance cfg run act = some (sh', run')) : s.Later (s.put sh' r run') := by
  have heffect := (Shared.advances hact).1
  intro r₁ run₁ hrun₁
  by_cases hr : r₁ = r
  · subst hr
    obtain rfl : run = run₁ := Option.some.inj (hrun.symm.trans hrun₁)
    refine ⟨run', runs_put_self, fun hmade => ?_, heffect.inserted_mono, fun hfin => ?_⟩
    · rcases heffect.candidate_eq hs with hsame | ⟨id, hnone, -⟩
      · exact hsame
      · exact absurd hnone hmade
    · rw [Shared.advance_finished hfin] at hact
      cases hact
  · refine ⟨run₁, ?_, fun _ => rfl, id, fun _ => rfl⟩
    rw [← hrun₁]
    exact Function.update_of_ne hr _ _

/-- An id that is drawn now belongs to no run yet. -/
theorem fresh_of_drawn (h : s.Closed cfg) (hnodup : sh'.drawn.Nodup) {id : GoString}
    (hdrawn : sh'.drawn = s.shared.drawn ++ [id]) {r₁ : ℕ}
    {run₁ : Run} (hrun₁ : s.runs r₁ = some run₁) : run₁.candidate ≠ some id := by
  intro hcand
  rw [hdrawn] at hnodup
  exact (nodup_append.mp hnodup).2.2 id (h.drawn r₁ run₁ id hrun₁ hcand).2 id (by simp) rfl

/-- The fresh candidate of a replay is not the one of the record: its run has not entered a record. -/
theorem unused_of_replaying {rec : RecordedOutcome} (h : s.Closed cfg) (hrun : s.runs r = some run)
    (hphase : run.phase = .replaying rec) : rec.unused run.id = true := by
  have hmade : run.Made := And.left ((h.sound r run hrun).on hphase)
  have hknown := h.replaying r run rec hrun hphase
  refine RecordedOutcome.unused_of_ne (h.drawn r run run.id hrun hmade).1 ?_ hknown.flight
  intro hid
  obtain ⟨r₁, run₁, hrun₁, hcand₁, hins⟩ := hknown.owner
  obtain rfl := h.unique r r₁ run run₁ run.id hrun hrun₁ hmade (hid ▸ hcand₁)
  obtain rfl : run = run₁ := Option.some.inj (hrun.symm.trans hrun₁)
  rw [hphase] at hins
  cases hins

/-- The record of an outcome is of the run that reports it. -/
theorem known_recorded {outcome : Outcome} {err : Option CandidateError} (hrun : run.Sound)
    (hphase : run.phase = .recording outcome err) :
    (s.put sh' r (run.reported outcome err)).Known cfg ⟨run.requestDigest cfg, some outcome, []⟩ := by
  obtain ⟨hmade, hid, happ, hrej⟩ := hrun.on hphase
  obtain ⟨hcand, -, hfin, hdig, hall⟩ := Run.reported_same cfg run outcome err
  have hown : (run.reported outcome err).candidate = some outcome.candidateID := by rw [hcand, hmade, hid]
  refine ⟨⟨r, _, runs_put_self, hown, ?_⟩, fun _ _ => rfl, ?_⟩
  · unfold Run.reported
    split <;> rfl
  · intro outcome' hout hstate
    cases hout
    have herr : err = none := by
      by_contra herr
      rw [hrej herr] at hstate
      cases hstate
    exact ⟨r, _, runs_put_self, hown, hfin, hall.mpr (happ herr).2, hdig⟩

section Fields

variable (h : s.Closed cfg) (hrun : s.runs r = some run) (heffect : Effect cfg s.shared run sh' run')

include h hrun heffect

theorem drawn_put : ∀ r₁ run₁ id, (s.put sh' r run').runs r₁ = some run₁ → run₁.candidate = some id →
    id ≠ [] ∧ id ∈ (s.put sh' r run').shared.drawn := by
  intro r₁ run₁ id hrun₁ hcand
  have hold : ∀ {r₂ run₂}, s.runs r₂ = some run₂ → run₂.candidate = some id → id ≠ [] ∧ id ∈ sh'.drawn := by
    intro r₂ run₂ hrun₂ hcand
    obtain ⟨hid, hmem⟩ := h.drawn r₂ run₂ id hrun₂ hcand
    exact ⟨hid, heffect.drawn_grows.subset hmem⟩
  rcases runs_put hrun₁ with ⟨rfl, rfl⟩ | ⟨-, hrun₁⟩
  · rcases heffect.candidate_eq (h.sound _ run hrun) with hsame | ⟨id', -, hnew, hid, hdrawn⟩
    · exact hold hrun (hsame ▸ hcand)
    · obtain rfl : id' = id := Option.some.inj (hnew.symm.trans hcand)
      exact ⟨hid, by simp [put, hdrawn]⟩
  · exact hold hrun₁ hcand

theorem unique_put (hnodup : sh'.drawn.Nodup) : ∀ r₁ r₂ run₁ run₂ id, (s.put sh' r run').runs r₁ = some run₁ →
    (s.put sh' r run').runs r₂ = some run₂ → run₁.candidate = some id → run₂.candidate = some id → r₁ = r₂ := by
  -- The run of the step and another one with the same id.
  have hother : ∀ {r₂ run₂ id}, s.runs r₂ = some run₂ → run'.candidate = some id → run₂.candidate = some id →
    r = r₂ := by
    intro r₂ run₂ id hrun₂ hcand hcand₂
    rcases heffect.candidate_eq (h.sound _ run hrun) with hsame | ⟨id', -, hnew, -, hdrawn⟩
    · exact h.unique r r₂ run run₂ id hrun hrun₂ (hsame ▸ hcand) hcand₂
    · obtain rfl : id' = id := Option.some.inj (hnew.symm.trans hcand)
      exact absurd hcand₂ (fresh_of_drawn h hnodup hdrawn hrun₂)
  intro r₁ r₂ run₁ run₂ id hrun₁ hrun₂ hcand₁ hcand₂
  rcases runs_put hrun₁ with ⟨rfl, rfl⟩ | ⟨-, hold₁⟩
  · rcases runs_put hrun₂ with ⟨rfl, rfl⟩ | ⟨-, hold₂⟩
    · rfl
    · exact hother hold₂ hcand₁ hcand₂
  · rcases runs_put hrun₂ with ⟨rfl, rfl⟩ | ⟨-, hold₂⟩
    · exact (hother hold₁ hcand₂ hcand₁).symm
    · exact h.unique r₁ r₂ run₁ run₂ id hold₁ hold₂ hcand₁ hcand₂

theorem removed_put : ∀ r₁ run₁ id, (s.put sh' r run').runs r₁ = some run₁ → id ∈ run₁.removed →
    run₁.candidate = some id := by
  intro r₁ run₁ id hrun₁ hid
  rcases runs_put hrun₁ with ⟨rfl, rfl⟩ | ⟨-, hrun₁⟩
  · have hcand : run.candidate = some id := by
      rcases heffect.mem_removed hid with hid | hcand
      · exact h.removed _ run id hrun hid
      · exact hcand
    rcases heffect.candidate_eq (h.sound _ run hrun) with hsame | ⟨id', hnone, -⟩
    · rw [hsame, hcand]
    · rw [hnone] at hcand
      cases hcand
  · exact h.removed r₁ run₁ id hrun₁ hid

/-- The run of the step has lost its directory if it does not report COMPLETED. -/
theorem gone_self {id : GoString} (hgone : run'.phase.withdrawn = true) (hcand : run'.candidate = some id) :
    id ∉ sh'.dirs := by
  have hfilter : run.candidate = some id → id ∉ (s.shared.removeAll run).dirs := by
    intro hsame hid
    exact (Finset.mem_filter.mp hid).2 hsame
  cases heffect with
  | quiet hsame _ _ _ hphase =>
    rw [hsame, (h.sound r run hrun).fresh (hphase hgone)] at hcand
    cases hcand
  | refused hphase hsame =>
    rw [hsame, (h.sound r run hrun).fresh hphase] at hcand
    cases hcand
  | created => cases hgone
  | removed hsame => exact hfilter (hsame ▸ hcand)
  | found | inserted => cases hgone
  | replayed => exact hfilter ((Run.replayed_same cfg run.removeAll _).1 ▸ hcand)
  | kept hphase hused =>
    rw [unused_of_replaying h hrun hphase] at hused
    cases hused
  | recorded hphase =>
    rw [Run.reported_withdrawn] at hgone
    rw [(Run.reported_same cfg run _ _).1] at hcand
    exact h.gone r run id hrun (by rw [hphase]; exact hgone) hcand

theorem gone_put (hnodup : sh'.drawn.Nodup) : ∀ r₁ run₁ id, (s.put sh' r run').runs r₁ = some run₁ →
    run₁.phase.withdrawn = true → run₁.candidate = some id → id ∉ (s.put sh' r run').shared.dirs := by
  intro r₁ run₁ id hrun₁ hgone hcand
  rcases runs_put hrun₁ with ⟨rfl, rfl⟩ | ⟨-, hrun₁⟩
  · exact gone_self h hrun heffect hgone hcand
  · intro hid
    rcases heffect.mem_dirs hid with hid | hdrawn
    · exact h.gone r₁ run₁ id hrun₁ hgone hcand hid
    · exact fresh_of_drawn h hnodup hdrawn hrun₁ hcand

end Fields

section Records

variable (h : s.Closed cfg) (hrun : s.runs r = some run) (hact : s.shared.advance cfg run act = some (sh', run'))

include h hrun hact

theorem records_put : ∀ key rec, (s.put sh' r run').shared.seen.lookup key = some rec →
    (s.put sh' r run').Known cfg rec := by
  have hsound := h.sound r run hrun
  have heffect := (Shared.advances hact).1
  have hlater := later_put hrun (h.sound r run hrun) hact
  intro key rec hrec
  have hold : s.shared.seen.lookup key = some rec → (s.put sh' r run').Known cfg rec :=
    fun hrec => (h.records key rec hrec).mono hlater
  cases heffect with
  | inserted hphase =>
    simp only [put, GoMap.lookup_insert_eq] at hrec
    split_ifs at hrec
    · cases hrec
      exact ⟨⟨r, _, runs_put_self, And.left (hsound.on hphase), rfl⟩, by simp, by simp⟩
    · exact hold hrec
  | recorded hphase =>
    simp only [put, Shared.record, GoMap.lookup_insert_eq] at hrec
    split_ifs at hrec
    · cases hrec
      exact known_recorded hsound hphase
    · exact hold hrec
  | _ => exact hold hrec

theorem replaying_put : ∀ r₁ run₁ rec, (s.put sh' r run').runs r₁ = some run₁ → run₁.phase = .replaying rec →
    (s.put sh' r run').Known cfg rec := by
  have heffect := (Shared.advances hact).1
  have hlater := later_put hrun (h.sound r run hrun) hact
  intro r₁ run₁ rec hrun₁ hph₁
  rcases runs_put hrun₁ with ⟨rfl, rfl⟩ | ⟨-, hold₁⟩
  · cases heffect with
    | quiet _ _ hplain | refused _ _ _ hplain => simp [hph₁, Phase.plain] at hplain
    | created => cases hph₁
    | removed _ _ hplain => simp [hph₁, Phase.plain] at hplain
    | found _ hrec =>
      cases hph₁
      exact (h.records _ rec hrec).mono hlater
    | inserted => cases hph₁
    | replayed | kept => exact absurd hph₁ (Run.replayed_phase rec)
    | @recorded outcome err =>
      have hfin := (Run.reported_same cfg run outcome err).2.2.1
      rw [hph₁] at hfin
      cases hfin
  · exact (h.replaying r₁ run₁ rec hold₁ hph₁).mono hlater

theorem completed_put : ∀ r₁ run₁ result err, (s.put sh' r run').runs r₁ = some run₁ →
    run₁.phase = .finished result err → result.state = some .completed → ∃ outcome, result.outcome = some outcome ∧
      (s.put sh' r run').AppliedBy cfg outcome.candidateID (run₁.requestDigest cfg) := by
  have hsound := h.sound r run hrun
  have heffect := (Shared.advances hact).1
  have hlater := later_put hrun (h.sound r run hrun) hact
  intro r₁ run₁ result err hrun₁ hph₁ hstate
  rcases runs_put hrun₁ with ⟨rfl, rfl⟩ | ⟨-, hold₁⟩
  · have hreplayed : ∀ {rec} {run₂ : Run}, run.phase = .replaying rec → run₁ = run₂.replayed cfg rec → ∃ outcome,
        result.outcome = some outcome ∧
          (s.put sh' r₁ run₁).AppliedBy cfg outcome.candidateID (run₁.requestDigest cfg) := by
      rintro rec run₂ hphase rfl
      obtain ⟨outcome, hrec, hres, happ, hdig⟩ := Run.replayed_completed hph₁ hstate
      have hknown := (h.replaying r₁ run rec hrun hphase).mono hlater
      refine ⟨outcome, hres, ?_⟩
      rw [(Run.replayed_same cfg run₂ rec).2.2, ← hdig]
      exact hknown.applied outcome hrec happ
    cases heffect with
    | quiet _ _ hplain | refused _ _ _ hplain => simp [hph₁, Phase.plain, hstate] at hplain
    | created => cases hph₁
    | removed _ _ hplain => simp [hph₁, Phase.plain, hstate] at hplain
    | found | inserted => cases hph₁
    | replayed hphase | kept hphase => exact hreplayed hphase rfl
    | recorded hphase =>
      obtain ⟨rfl, hres⟩ := Run.reported_completed hph₁ hstate
      obtain ⟨-, -, happ, -⟩ := hsound.on hphase
      exact ⟨_, hres, (known_recorded hsound hphase).applied _ rfl (happ rfl).1⟩
  · obtain ⟨outcome, hres, happ⟩ := h.completed r₁ run₁ result err hold₁ hph₁ hstate
    exact ⟨outcome, hres, happ.mono hlater⟩

end Records

/-- A step of a run keeps the system closed if it draws no id twice. -/
theorem Closed.advance (h : s.Closed cfg) (hrun : s.runs r = some run)
    (hact : s.shared.advance cfg run act = some (sh', run')) (hnodup : sh'.drawn.Nodup) :
    (s.put sh' r run').Closed cfg := by
  have hsound := h.sound r run hrun
  have heffect := (Shared.advances hact).1
  refine ⟨fun r₁ run₁ hrun₁ => ?_, drawn_put h hrun heffect, unique_put h hrun heffect hnodup,
    removed_put h hrun heffect,
    gone_put h hrun heffect hnodup, records_put h hrun hact, replaying_put h hrun hact, completed_put h hrun hact⟩
  rcases runs_put hrun₁ with ⟨-, rfl⟩ | ⟨-, hold₁⟩
  · exact (Shared.advances hact).2 hsound
  · exact h.sound r₁ run₁ hold₁

end Step

theorem startRun_fresh (spec : LeafSpec) (denied : Option Reason) :
    (startRun spec denied).candidate = none ∧ (startRun spec denied).removed = [] ∧
      (startRun spec denied).phase.plain = true ∧ (startRun spec denied).Sound := by
  unfold startRun
  split_ifs
  · cases denied with
    | none =>
      refine ⟨rfl, rfl, rfl, rfl, rfl, ?_, by simp [Run.note]⟩
      intro n hn
      exact ⟨_, mem_singleton.mp hn⟩
    | some reason => exact ⟨rfl, rfl, rfl, Run.sound_failClosed⟩
  · exact ⟨rfl, rfl, rfl, fun h => by cases h⟩

theorem later_start (run : Run) (hnone : s.runs r = none) : s.Later (s.put s.shared r run) := by
  intro r₁ run₁ hrun₁
  have hr : r₁ ≠ r := by
    rintro rfl
    rw [hnone] at hrun₁
    cases hrun₁
  exact ⟨run₁, (Function.update_of_ne hr _ _).trans hrun₁, fun _ => rfl, id, fun _ => rfl⟩

theorem Closed.start (h : s.Closed cfg) (hnone : s.runs r = none) (spec : LeafSpec) (denied : Option Reason) :
    (s.put s.shared r (startRun spec denied)).Closed cfg := by
  obtain ⟨hcand, hrem, hplain, hsound⟩ := startRun_fresh spec denied
  have hlater := later_start (startRun spec denied) hnone
  -- The new run has no candidate, so whatever is said of runs with one is about the others.
  have hold : ∀ {r₁ run₁ id}, (s.put s.shared r (startRun spec denied)).runs r₁ = some run₁ → run₁.candidate = some id →
      s.runs r₁ = some run₁ := by
    intro r₁ run₁ id hrun₁ hid
    rcases runs_put hrun₁ with ⟨-, rfl⟩ | ⟨-, hold₁⟩
    · rw [hcand] at hid
      cases hid
    · exact hold₁
  refine ⟨fun r₁ run₁ hrun₁ => ?_, fun r₁ run₁ id hrun₁ hid => h.drawn r₁ run₁ id (hold hrun₁ hid) hid,
    fun r₁ r₂ run₁ run₂ id hrun₁ hrun₂ hid₁ hid₂ =>
      h.unique r₁ r₂ run₁ run₂ id (hold hrun₁ hid₁) (hold hrun₂ hid₂) hid₁ hid₂,
    fun r₁ run₁ id hrun₁ hid => ?_,
    fun r₁ run₁ id hrun₁ hgone hid => h.gone r₁ run₁ id (hold hrun₁ hid) hgone hid,
    fun key rec hrec => (h.records key rec hrec).mono hlater, fun r₁ run₁ rec hrun₁ hphase => ?_,
    fun r₁ run₁ result err hrun₁ hphase hstate => ?_⟩
  · rcases runs_put hrun₁ with ⟨-, rfl⟩ | ⟨-, hold₁⟩
    · exact hsound
    · exact h.sound r₁ run₁ hold₁
  · rcases runs_put hrun₁ with ⟨-, rfl⟩ | ⟨-, hold₁⟩
    · rw [hrem] at hid
      cases hid
    · exact h.removed r₁ run₁ id hold₁ hid
  · rcases runs_put hrun₁ with ⟨-, rfl⟩ | ⟨-, hold₁⟩
    · simp [hphase, Phase.plain] at hplain
    · exact (h.replaying r₁ run₁ rec hold₁ hphase).mono hlater
  · rcases runs_put hrun₁ with ⟨-, rfl⟩ | ⟨-, hold₁⟩
    · simp [hphase, Phase.plain, hstate] at hplain
    · obtain ⟨outcome, hres, happ⟩ := h.completed r₁ run₁ result err hold₁ hphase hstate
      exact ⟨outcome, hres, happ.mono hlater⟩

/-- The three things an event can do. -/
theorem step_cases (cfg : StoreConfig) (s : System) (event : ℕ × Act) :
    s.step cfg event = s ∨
      (∃ spec denied, s.runs event.1 = none ∧ s.step cfg event = s.put s.shared event.1 (startRun spec denied)) ∨
      ∃ run sh' run', s.runs event.1 = some run ∧ s.shared.advance cfg run event.2 = some (sh', run') ∧
        s.step cfg event = s.put sh' event.1 run' := by
  unfold System.step
  cases hrun : s.runs event.1 with
  | none =>
    cases event.2 with
    | start spec denied => exact .inr (.inl ⟨spec, denied, rfl, rfl⟩)
    | _ => exact .inl rfl
  | some run =>
    dsimp only
    cases hact : s.shared.advance cfg run event.2 with
    | none => exact .inl rfl
    | some next => exact .inr (.inr ⟨run, next.1, next.2, rfl, hact, rfl⟩)

theorem Closed.step (h : s.Closed cfg) {event : ℕ × Act} (hnodup : (s.step cfg event).shared.drawn.Nodup) :
    (s.step cfg event).Closed cfg := by
  rcases step_cases cfg s event with heq | ⟨spec, denied, hnone, heq⟩ | ⟨run, sh', run', hrun, hact, heq⟩
  · rwa [heq]
  · rw [heq]
    exact h.start hnone spec denied
  · rw [heq] at hnodup ⊢
    exact h.advance hrun hact hnodup

theorem drawn_step (event : ℕ × Act) : s.shared.drawn <+: (s.step cfg event).shared.drawn := by
  rcases step_cases cfg s event with heq | ⟨spec, denied, -, heq⟩ | ⟨run, sh', run', hrun, hact, heq⟩
  · rw [heq]
  · rw [heq]
    exact prefix_rfl
  · rw [heq]
    exact (Shared.advances hact).1.drawn_grows

theorem closed_initial (cfg : StoreConfig) (dirs : Finset GoString) : (initial dirs).Closed cfg := by
  constructor <;> simp [initial]

theorem closed_run (cfg : StoreConfig) (dirs : Finset GoString) (events : List (ℕ × Act))
    (hnodup : ((initial dirs).run cfg events).shared.drawn.Nodup) : ((initial dirs).run cfg events).Closed cfg := by
  -- Later draws only add to the list, so the ids are distinct at every moment before.
  induction events using List.reverseRecOn with
  | nil => exact closed_initial cfg dirs
  | append_singleton events event ih =>
    have hrun : (initial dirs).run cfg (events ++ [event]) = ((initial dirs).run cfg events).step cfg event := by
      simp [System.run]
    rw [hrun] at hnodup ⊢
    exact (ih (hnodup.sublist (drawn_step event).sublist)).step hnodup

end System

def Run.digestText (run : Run) : GoString := writeFields (applyRequestFields run.spec.baseGitOID run.request)

/-- For any synthesizers and authorizer answers and any interleaving of runs on one store: a run that reports COMPLETED
had no authorization denied and every edit authorized when it was proposed, and the application it reports is one of a
run, itself or an earlier one with the same request, that had each edit authorized again immediately before it was
applied; the directory of a run that fails or returns an error is gone; and no run removes the directory of another. -/
theorem leaf_run_fails_closed (cfg : StoreConfig) (dirs : Finset GoString) (events : List (ℕ × Act))
    (hdrawn : ((System.initial dirs).run cfg events).shared.drawn.Nodup) :
    let s := (System.initial dirs).run cfg events
    ∀ r run result err, s.runs r = some run → run.phase = .finished result err →
      (result.state = some .completed →
        (∀ ask denied, .authorize ask denied ∈ run.trace → denied = none) ∧
        (∀ e ∈ run.staged, .authorize (.propose e) none ∈ run.trace) ∧
        ∃ outcome r' run', result.outcome = some outcome ∧ s.runs r' = some run' ∧
          run'.candidate = some outcome.candidateID ∧ run'.AppliedAll ∧
          ((cfg.sha256 run'.digestText = cfg.sha256 run.digestText → run'.digestText = run.digestText) →
            run'.staged.map Edit.digestFields = run.staged.map Edit.digestFields)) ∧
      (result.state = some .failed ∨ err ≠ none → ∀ id, run.candidate = some id → id ∉ s.shared.dirs) ∧
      ∀ id ∈ run.removed, ∀ r' run', s.runs r' = some run' → run'.candidate = some id → r' = r := by
  intro s r run result err hrun hphase
  have hcl := System.closed_run cfg dirs events hdrawn
  have hsound := hcl.sound r run hrun
  unfold Run.Sound at hsound
  rw [hphase] at hsound
  refine ⟨fun hstate => ?_, fun hfailed id hid => ?_, fun id hid r' run' hrun' hid' => ?_⟩
  · obtain ⟨-, htrace⟩ := hsound hstate
    obtain ⟨outcome, hres, r', run', hrun', hcand, -, happ, hdig⟩ :=
      hcl.completed r run result err hrun hphase hstate
    obtain ⟨hgranted, hprop⟩ := granted_of_applied_or_ready htrace
    refine ⟨hgranted, hprop, outcome, r', run', hres, hrun', hcand, happ, fun hcollision => ?_⟩
    exact digestFields_eq (hcollision (congrArg Digest.hex hdig))
  · refine hcl.gone r run id hrun ?_ hid
    rw [hphase]
    refine decide_eq_true fun hstate => ?_
    rcases hfailed with hfailed | herr
    · rw [hfailed] at hstate
      cases hstate
    · exact herr (hsound hstate).1
  · exact hcl.unique r' r run' run id hrun' hrun hid' (hcl.removed r run id hrun hid)

def exampleSpec : LeafSpec :=
  let leaf := exampleLeaf (lit "g") (lit "t") [lit "src"] []
  { runID := ⟨lit "run", lit "r"⟩
    nodeID := lit "n"
    ownedPaths := leaf.scope.ownedPaths
    forbiddenPaths := leaf.scope.forbiddenPaths
    baseGitOID := leaf.scope.baseGitOID
    identity := leaf.identity
    grant := leaf.grant
    changeSetID := lit "changes"
    idempotencyKey := lit "key"
    now := 1 }

/-- Run 0 adds a file; run 1 proposes the same and is denied, and waits with its discard for the application of run
0. -/
def exampleEvents : List (ℕ × Act) :=
  [(0, .start exampleSpec none), (1, .start exampleSpec none), (0, .mkdir (lit "0")), (1, .mkdir (lit "1")),
    (0, .hydrated true), (1, .hydrated true), (0, .propose (additionOf (lit "src/a")) none),
    (1, .propose (additionOf (lit "src/a")) (some .staleFence)), (0, .returned none), (1, .returned none),
    (0, .proceed), (0, .proceed), (0, .proceed), (1, .proceed), (0, .authorize none), (0, .applyOne none),
    (0, .checked (.ok (zeroDigest, List.replicate 40 0x61))), (1, .proceed), (0, .proceed)]

def Phase.result? : Phase → Option RunResult
  | .finished result _ => some result
  | _ => none

theorem exists_of_result? (s : System) (r : ℕ) (state : RunState)
    (h : ((s.runs r).bind fun run => run.phase.result?.bind RunResult.state) = some state) :
    ∃ run result err, s.runs r = some run ∧ run.phase = .finished result err ∧ result.state = some state := by
  obtain ⟨run, hrun, h⟩ := Option.bind_eq_some_iff.mp h
  obtain ⟨result, hres, hstate⟩ := Option.bind_eq_some_iff.mp h
  cases hphase : run.phase with
  | finished result' err =>
    rw [hphase] at hres
    cases hres
    exact ⟨run, result, err, hrun, hphase, hstate⟩
  | _ => simp [hphase, Phase.result?] at hres

theorem leaf_run_fails_closed_pair :
    let s := (System.initial ∅).run zeroConfig exampleEvents
    (∃ run, s.runs 0 = some run ∧ ∀ e ∈ run.staged, .authorize (.propose e) none ∈ run.trace) ∧
      ∃ run, s.runs 1 = some run ∧ ∀ id, run.candidate = some id → id ∉ s.shared.dirs := by
  intro s
  have hdrawn : s.shared.drawn.Nodup := by decide +kernel
  obtain ⟨run₀, result₀, err₀, hrun₀, hph₀, hstate₀⟩ := exists_of_result? s 0 .completed
    (by decide +kernel)
  obtain ⟨run₁, result₁, err₁, hrun₁, hph₁, hstate₁⟩ := exists_of_result? s 1 .failed
    (by decide +kernel)
  obtain ⟨hdone, -, -⟩ := leaf_run_fails_closed zeroConfig ∅ exampleEvents hdrawn 0 run₀ result₀ err₀ hrun₀ hph₀
  obtain ⟨-, hgone, -⟩ := leaf_run_fails_closed zeroConfig ∅ exampleEvents hdrawn 1 run₁ result₁ err₁ hrun₁ hph₁
  exact ⟨⟨run₀, hrun₀, (hdone hstate₀).2.1⟩, run₁, hrun₁, hgone (.inl hstate₁)⟩

end CodeMemory.Broker
