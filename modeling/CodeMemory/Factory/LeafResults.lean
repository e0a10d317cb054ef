import CodeMemory.Factory.Steps

/-! Leaf results over whole histories. A result is recorded once, by one commit
that presented it under the newest lease of its leaf; afterwards both layers that
check a commit answer an exact retry and refuse the rest. -/

namespace CodeMemory.Factory

open Lib Lib.GoString Lib.GoMap Lib.Result

/-- The fence is that of the newest lease of the leaf, which has not expired. -/
def StillCurrent (n : Node) (fence : Nat) (now : Int) : Prop :=
  ∃ l, currentLease n.leases = some l ∧ l.fence = fence ∧ now < l.expiresAtMs

/-- In the state `db` this commit is the first of its leaf: the run is running and the fence is the newest one and
unexpired. -/
structure Records (cfg : Config) (db : DB) (who : Identity) (runID id : GoString) (fence : Nat) (bytes : GoString)
    (w : CommitWorld) (res : LeafResult) : Prop where
  accepted : ∃ r n l, db.runs.lookup (who.run runID) = some r ∧ r.state = some .running ∧
    r.nodes.lookup id = some n ∧ n.result = none ∧ l ∈ n.leases ∧ (∀ l' ∈ n.leases, l'.fence ≤ l.fence) ∧
    l.fence = fence ∧ w.commitNow < l.expiresAtMs
  valid : (who.run runID).valid = true ∧ printableID id = true ∧ fence ≠ 0
  fence : res.fence = fence
  digest : res.digest = cfg.digestBytes bytes

/-- The commit of a history that recorded a result. -/
def Presented (cfg : Config) (history : List Command) (key : RunKey) (id : GoString) (res : LeafResult) : Prop :=
  ∃ before after who runID fence bytes w,
    history = before ++ Command.commitLeaf who runID id fence bytes w :: after ∧ who.run runID = key ∧
      Records cfg (cfg.run before) who runID id fence bytes w res

variable {cfg : Config} {key : RunKey} {res : LeafResult} {id runID bytes : GoString} {db : DB} {who : Identity}
  {w : CommitWorld} {n : Node} {r r' : Run} {fence : Nat}

theorem Presented.append {history : List Command}
    (h : Presented cfg history key id res) (later : List Command) : Presented cfg (history ++ later) key id res := by
  obtain ⟨before, after, who, runID, fence, bytes, w, rfl, hkey, hrec⟩ := h
  exact ⟨before, after ++ later, who, runID, fence, bytes, w, by simp, hkey, hrec⟩

def Run.Fenced (r : Run) : Prop := Ledger.All (fun n => Dense n.leases) r.nodes

theorem Admitted.fenced (h : Admitted r) : r.Fenced := fun id n hn => (h.nodes id n hn).2

theorem RunStep.fenced (hr : r.Fenced) (h : RunStep r r') : r'.Fenced := by
  cases h with
  | issue id n l found fence =>
    have hn : Dense n.leases := hr id n found
    exact Ledger.All.insert hr (hn.append fence)
  | _ => exact hr

theorem KernelStep.fenced (hr : r.Fenced) (h : KernelStep r r') : r'.Fenced := by
  cases h with
  | run _ h => exact h.fenced hr
  | commit id fence now n l result h =>
    have hn : Dense n.leases := hr id n h.found
    exact Ledger.All.insert hr hn

theorem fenced_run (cfg : Config) (history : List Command) : Ledger.All Run.Fenced (cfg.run history).runs :=
  Ledger.all_run (step_change cfg) (fun _ h => h.1.fenced) (fun _ _ hr h => h.fenced hr)
    (Ledger.all_empty Run.Fenced) history

theorem Dense.increasing {leases : List Lease} (h : Dense leases) : (leases.map (·.fence)).Pairwise (· < ·) := by
  rw [show leases.map (·.fence) = _ from h]
  exact List.pairwise_lt_range'

def Run.HasResult (r : Run) (id : GoString) (res : LeafResult) : Prop :=
  ∃ n, r.nodes.lookup id = some n ∧ n.result = some res

theorem KernelStep.hasResult (hr : r.HasResult id res) (h : KernelStep r r') : r'.HasResult id res := by
  obtain ⟨n, hn, hres⟩ := hr
  cases h with
  | run _ h =>
    cases h with
    | issue id' n' l found fence =>
      by_cases hid : id = id'
      · subst hid
        rw [hn] at found
        cases found
        exact ⟨{ n with leases := n.leases ++ [l] }, by rw [lookup_insert_eq, if_pos rfl], hres⟩
      · exact ⟨n, by rw [lookup_insert_eq, if_neg hid, hn], hres⟩
    | _ => exact ⟨n, hn, hres⟩
  | commit id' fence now n' l result h =>
    have hid : id ≠ id' := by
      rintro rfl
      have hfound := h.found
      rw [hn] at hfound
      cases hfound
      rw [h.fresh] at hres
      cases hres
    refine ⟨n, ?_, hres⟩
    show (r.nodes.insert id' _).lookup id = some n
    rw [lookup_insert_eq, if_neg hid, hn]

theorem hasResult_of_steps (hr : r.HasResult id res)
    (h : Relation.ReflTransGen KernelStep r r') : r'.HasResult id res := by
  induction h with
  | refl => exact hr
  | tail _ hstep ih => exact hstep.hasResult ih

/-- No quiet command records a result. -/
theorem hasResult_of_quiet {m m' : GoMap RunKey Run} (h : Ledger.Change cfg.Opened RunStep m m')
    (hr' : m'.lookup key = some r') (hres : r'.HasResult id res) :
    ∃ r, m.lookup key = some r ∧ r.HasResult id res := by
  cases h with
  | same => exact ⟨r', hr', hres⟩
  | create key₀ r₀ fresh init =>
    rw [lookup_insert_eq] at hr'
    split_ifs at hr'
    · cases hr'
      obtain ⟨n, hn, hn'⟩ := hres
      rw [(init.1.nodes id n hn).1] at hn'
      cases hn'
    · exact ⟨r', hr', hres⟩
  | evolve key₀ r₀ r₁ found step =>
    rw [lookup_insert_eq] at hr'
    split_ifs at hr' with hkey
    · subst hkey
      cases hr'
      refine ⟨r₀, found, ?_⟩
      obtain ⟨n, hn, hn'⟩ := hres
      cases step with
      | issue id' n' l hfound fence =>
        rw [lookup_insert_eq] at hn
        split_ifs at hn with hid
        · subst hid
          cases hn
          exact ⟨n', hfound, hn'⟩
        · exact ⟨n, hn, hn'⟩
      | _ => exact ⟨n, hn, hn'⟩
    · exact ⟨r', hr', hres⟩

/-- A commit that is accepted adds the result it presents to its own leaf, or nothing at all. -/
theorem hasResult_of_commit {db' : DB} {out : Commit}
    (h : cfg.commitLeafResult db who runID id fence bytes w = .ok (out, db'))
    {id' : GoString} (hr' : db'.runs.lookup key = some r') (hres : r'.HasResult id' res) :
    (∃ r, db.runs.lookup key = some r ∧ r.HasResult id' res) ∨
      (who.run runID = key ∧ id = id' ∧ Records cfg db who runID id fence bytes w res) := by
  unfold Config.commitLeafResult DB.onRun at h
  replace h := (guard_eq_ok_iff.mp h).2
  split at h
  · cases h
  next r₀ hfound =>
  simp only [bind_eq_ok_iff, Except.ok.injEq, Prod.mk.injEq] at h
  obtain ⟨⟨out', r₁⟩, hcommit, -, rfl⟩ := h
  rw [lookup_insert_eq] at hr'
  split_ifs at hr' with hkey
  swap
  · exact .inl ⟨r', hr', hres⟩
  cases hr'
  subst hkey
  rcases commitLeaf_cases hcommit with rfl | ⟨n, l, hcom, hvalid, hfence, hdig, rfl⟩
  · exact .inl ⟨r₁, hfound, hres⟩
  obtain ⟨n', hn', hres⟩ := hres
  change (r₀.nodes.insert id _).lookup id' = some n' at hn'
  rw [lookup_insert_eq] at hn'
  split_ifs at hn' with hid
  · subst hid
    cases hn'
    cases hres
    obtain ⟨hmem, hmax⟩ := currentLease_spec hcom.newest
    have hnewest : ∀ l' ∈ n.leases, l'.fence ≤ l.fence := by
      intro l' hl'
      rw [hmax]
      exact fence_le_maxFence hl'
    exact .inr ⟨rfl, rfl, ⟨r₀, n, l, hfound, hcom.running, hcom.found, hcom.fresh, hmem, hnewest,
      hcom.fence, hcom.unexpired⟩, hvalid, hfence, hdig⟩
  · exact .inl ⟨r₀, hfound, n', hn', hres⟩

theorem presented_of_hasResult (cfg : Config) (history : List Command)
    (hr : (cfg.run history).runs.lookup key = some r) (hres : r.HasResult id res) :
    Presented cfg history key id res := by
  -- on the length of the history: the last command recorded the result, or it was there before
  induction history using List.reverseRecOn generalizing r with
  | nil => simp [Config.run, DB.empty] at hr
  | append_singleton history c ih =>
    have hold : (∃ r, (cfg.run history).runs.lookup key = some r ∧ r.HasResult id res) →
        Presented cfg (history ++ [c]) key id res := by
      rintro ⟨r, hr, hres⟩
      exact (ih hr hres).append [c]
    rw [run_concat] at hr
    cases c with
    | commitLeaf who runID id' fence bytes w =>
      unfold Config.step at hr
      cases h : cfg.execute (cfg.run history) (.commitLeaf who runID id' fence bytes w) with
      | error e =>
        rw [h] at hr
        exact hold ⟨r, hr, hres⟩
      | ok db' =>
        rw [h] at hr
        obtain ⟨out, h⟩ := map_snd_eq_ok h
        rcases hasResult_of_commit h hr hres with h | ⟨hkey, rfl, hrec⟩
        · exact hold h
        · exact ⟨history, [], who, runID, fence, bytes, w, rfl, hkey, hrec⟩
    | _ =>
      refine hold (hasResult_of_quiet (step_quiet cfg _ ?_).runs hr hres)
      trivial

theorem authorize_iff_stillCurrent {now : Int}
    {nodes : GoMap GoString Node} (hvalid : key.valid = true ∧ printableID id = true)
    (hfence : fence ≠ 0) (hn : nodes.lookup id = some n) :
    (∃ l, Roster.authorize key id fence now nodes = .ok l) ↔ StillCurrent n fence now := by
  simp only [Roster.authorize_eq_ok_iff, hn]
  constructor
  · rintro ⟨l, -, -, -, hl, hnow, n', hn', hcur⟩
    cases hn'
    exact ⟨l, hcur, hl, hnow⟩
  · rintro ⟨l, hcur, hl, hnow⟩
    exact ⟨l, hfence, hvalid.1, hvalid.2, hl, hnow, n, rfl, hcur⟩

/-- The kernel's answers once the result of a leaf is recorded. -/
theorem commitLeafResult_recorded {out : Commit × DB}
    (hvalid : (who.run runID).valid = true ∧ printableID id = true) (hfence : res.fence ≠ 0)
    (hr : db.runs.lookup (who.run runID) = some r) (hn : r.nodes.lookup id = some n) (hres : n.result = some res) :
    cfg.commitLeafResult db who runID id fence bytes w = .ok out ↔
      (validIdentity who = true ∧ bytes ≠ []) ∧ r.state = some .running ∧ StillCurrent n fence w.authorizedNow ∧
        fence = res.fence ∧ cfg.digestBytes bytes = res.digest ∧ out = (⟨res, true⟩, db) := by
  have hsame : { db with runs := db.runs.insert (who.run runID) r } = db := by
    have : db.runs.insert (who.run runID) r = db.runs := by
      refine Finmap.ext_lookup fun key => ?_
      rw [lookup_insert_eq]
      split_ifs with h
      · rw [h, hr]
      · rfl
    rw [this]
  have hrun : runID ≠ [] := by
    rintro rfl
    simp [RunKey.valid, Identity.run, printableID, boundedID] at hvalid
  have hid : id ≠ [] := by
    rintro rfl
    simp [printableID, boundedID] at hvalid
  simp only [Config.commitLeafResult, DB.onRun, guard_eq_ok_iff, hr, bind_eq_ok_iff,
    commitLeaf_recorded hn hres, Except.ok.injEq]
  constructor
  · rintro ⟨hinput, _, ⟨hstate, hauth, rfl, hdig, rfl⟩, rfl⟩
    simp only [not_or, not_not] at hinput
    rw [hsame]
    exact ⟨⟨hinput.1, hinput.2.2.2.2⟩, hstate, (authorize_iff_stillCurrent hvalid hfence hn).mp hauth, rfl, hdig.symm,
      rfl⟩
  · rintro ⟨⟨hwho, hbytes⟩, hstate, hcur, rfl, hdig, rfl⟩
    refine ⟨?_, _, ⟨hstate, (authorize_iff_stillCurrent hvalid hfence hn).mpr hcur, rfl, hdig.symm, rfl⟩, ?_⟩
    · simp only [not_or, not_not]
      exact ⟨hwho, hrun, hid, hfence, hbytes⟩
    · rw [hsame]

/-- The fences of a leaf increase. A recorded result was presented once, while the run was running, under the fence
that was the newest and unexpired; it stays for ever; an exact retry under the still-current fence is answered with
it, by the roster and by the kernel while the run is running; every other commit for the leaf is refused; and no
commit changes the tables any more. -/
theorem leaf_result_once (cfg : Config) (history : List Command) (key : RunKey) (r : Run) (id : GoString) (n : Node)
    (hr : (cfg.run history).runs.lookup key = some r) (hn : r.nodes.lookup id = some n) :
    (n.leases.map (·.fence)).Pairwise (· < ·) ∧
    ∀ res, n.result = some res →
      Presented cfg history key id res ∧
      (∀ later, ∃ r' n', (cfg.run (history ++ later)).runs.lookup key = some r' ∧
        r'.nodes.lookup id = some n' ∧ n'.result = some res) ∧
      (∀ fence artifactID digest now committedAt out,
        Roster.commitResult key id fence artifactID digest now committedAt r.nodes = .ok out ↔
          printableID artifactID = true ∧ StillCurrent n fence now ∧ fence = res.fence ∧ digest = res.digest ∧
            out = (⟨res, true⟩, r.nodes)) ∧
      (∀ who runID fence bytes w out, who.run runID = key →
        (cfg.commitLeafResult (cfg.run history) who runID id fence bytes w = .ok out ↔
          (validIdentity who = true ∧ bytes ≠ []) ∧ r.state = some .running ∧ StillCurrent n fence w.authorizedNow ∧
            fence = res.fence ∧ cfg.digestBytes bytes = res.digest ∧ out = (⟨res, true⟩, cfg.run history))) ∧
      ∀ who runID fence bytes w, who.run runID = key →
        cfg.step (cfg.run history) (.commitLeaf who runID id fence bytes w) = cfg.run history := by
  refine ⟨(fenced_run cfg history key r hr id n hn).increasing, fun res hres => ?_⟩
  have hpresented := presented_of_hasResult cfg history hr ⟨n, hn, hres⟩
  obtain ⟨hvalid, hfence, hdig⟩ : (key.valid = true ∧ printableID id = true) ∧ res.fence ≠ 0 ∧
      isHexDigest res.digest = true := by
    obtain ⟨before, after, who, runID, fence, bytes, w, -, rfl, hrec⟩ := hpresented
    obtain ⟨hkey, hid, hne⟩ := hrec.valid
    exact ⟨⟨hkey, hid⟩, by rw [hrec.fence]; exact hne, by rw [hrec.digest]; exact cfg.isHexDigest_digestBytes bytes⟩
  refine ⟨hpresented, fun later => ?_, ?_, ?_, ?_⟩
  · obtain ⟨r', hr', hsteps⟩ := steps_run cfg history later hr
    obtain ⟨n', hn', hres'⟩ := hasResult_of_steps ⟨n, hn, hres⟩ hsteps
    exact ⟨r', n', hr', hn', hres'⟩
  · intro fence artifactID digest now committedAt out
    rw [commitResult_recorded hn hres]
    constructor
    · rintro ⟨⟨hart, -⟩, hauth, rfl, rfl, rfl⟩
      exact ⟨hart, (authorize_iff_stillCurrent hvalid hfence hn).mp hauth, rfl, rfl, rfl⟩
    · rintro ⟨hart, hcur, rfl, rfl, rfl⟩
      exact ⟨⟨hart, hdig⟩, (authorize_iff_stillCurrent hvalid hfence hn).mpr hcur, rfl, rfl, rfl⟩
  · rintro who runID fence bytes w out rfl
    exact commitLeafResult_recorded hvalid hfence hr hn hres
  · rintro who runID fence bytes w rfl
    unfold Config.step
    cases h : cfg.execute (cfg.run history) (.commitLeaf who runID id fence bytes w) with
    | error e => rfl
    | ok db' =>
      obtain ⟨out, h⟩ := map_snd_eq_ok h
      obtain ⟨-, -, -, -, -, heq⟩ := (commitLeafResult_recorded hvalid hfence hr hn hres).mp h
      exact (Prod.mk.inj heq).2

def exampleCommit : Command :=
  .commitLeaf exampleIdentity (lit "run") (lit "leaf") 1 (lit "bytes") ⟨fun _ => some (lit "artifact"), 1, 2, 3⟩

theorem leaf_result_once_committed :
    ∃ r n res, (exampleConfig.run (exampleOpening ++ [exampleCommit])).runs.lookup
        (exampleIdentity.run (lit "run")) = some r ∧ r.nodes.lookup (lit "leaf") = some n ∧ n.result = some res ∧
      ∀ later, ∃ r' n', (exampleConfig.run ((exampleOpening ++ [exampleCommit]) ++ later)).runs.lookup
        (exampleIdentity.run (lit "run")) = some r' ∧ r'.nodes.lookup (lit "leaf") = some n' ∧
          n'.result = some res := by
  have h : ((exampleConfig.run (exampleOpening ++ [exampleCommit])).runs.lookup (exampleIdentity.run (lit "run"))).any
      (fun r => (r.nodes.lookup (lit "leaf")).any (fun n => n.result.isSome)) = true := by decide +kernel
  obtain ⟨r, hr, h⟩ := (Option.any_eq_true _ _).mp h
  obtain ⟨n, hn, h⟩ := (Option.any_eq_true _ _).mp h
  obtain ⟨res, hres⟩ := Option.isSome_iff_exists.mp h
  exact ⟨r, n, res, hr, hn, hres,
    ((leaf_result_once exampleConfig _ _ r _ n hr hn).2 res hres).2.1⟩

end CodeMemory.Factory
