import CodeMemory.Factory.Lifecycle

/-! What an accepted candidate preview may touch. The leaves of a run own disjoint
scopes, so the path of an accepted edit has one owner. Uniqueness is decided byte for
byte and forbidden paths are not looked at; the last theorem says what that leaves. -/

namespace CodeMemory.Factory

open Lib Lib.GoString Lib.GoMap Lib.Result
open Lib.Path (slash)

def Covers (root path : GoString) : Prop := path = root ∨ root ++ [slash] <+: path

variable {path a b p : GoString} {r' : Run} {lower : Rune → Rune} {edits : List PreviewEdit}

/-- Of two directories above a path one is above the other. -/
theorem Covers.comparable (ha : Covers a path) (hb : Covers b path) : Covers a b ∨ Covers b a := by
  rcases ha with rfl | ha
  · exact .inr hb
  · rcases hb with rfl | hb
    · exact .inl (.inr ha)
    · rcases List.prefix_or_prefix_of_prefix ha hb with h | h
      · rcases List.prefix_concat_iff.mp h with h | h
        · exact .inl (.inl (List.append_cancel_right h).symm)
        · exact .inl (.inr h)
      · rcases List.prefix_concat_iff.mp h with h | h
        · exact .inl (.inl (List.append_cancel_right h))
        · exact .inr (.inr h)

theorem Covers.trans (h : Covers a b) (hb : Covers b path) : Covers a path := by
  rcases hb with rfl | hb
  · exact h
  · rcases h with rfl | ha
    · exact .inr hb
    · exact .inr (ha.trans ((List.prefix_append b [slash]).trans hb))

theorem not_nested_self (a : GoString) : ¬ a ++ [slash] <+: a := by
  intro h
  have hlen := h.length_le
  simp at hlen

namespace Config

variable {cfg : Config} {lower : Rune → Rune}

theorem pathWithinScope_iff {path : GoString} {scope : List GoString} :
    cfg.pathWithinScope path scope = true ↔ ∃ root ∈ scope, Covers (cfg.foldPath root) (cfg.foldPath path) := by
  simp only [pathWithinScope, List.any_eq_true, Bool.or_eq_true, decide_eq_true_eq, hasPrefix,
    List.isPrefixOf_iff_prefix, Covers]

theorem pathsCollide_iff {a b : GoString} :
    cfg.pathsCollide a b = true ↔ Covers (cfg.foldPath a) (cfg.foldPath b) ∨
      Covers (cfg.foldPath b) (cfg.foldPath a) := by
  simp only [pathsCollide, Bool.or_eq_true, decide_eq_true_eq, hasPrefix, List.isPrefixOf_iff_prefix, Covers]
  tauto

theorem LowersRunes.foldPath_toValid (h : cfg.LowersRunes lower) (path : GoString) :
    cfg.foldPath (toValid path) = cfg.foldPath path := by
  simp only [foldPath, h.toLower_eq, mapRunes_toValid]

theorem LowersRunes.pathWithinScope_stored (h : cfg.LowersRunes lower) (path : GoString) (scope : List GoString) :
    cfg.pathWithinScope path (storedPaths scope) = cfg.pathWithinScope path scope := by
  simp only [pathWithinScope, storedPaths, List.any_map, Function.comp_def, h.foldPath_toValid]

end Config

def Run.IsLeaf (r : Run) (id : GoString) (n : Node) : Prop := r.nodes.lookup id = some n ∧ n.kind = .leaf

def Config.Owns (cfg : Config) (r : Run) (id : GoString) (n : Node) (path : GoString) : Prop :=
  r.IsLeaf id n ∧ cfg.pathWithinScope path n.ownedPaths = true

variable {cfg : Config} {r : Run}

theorem RunStep.planned (hr : cfg.Planned r) (h : RunStep r r') : cfg.Planned r' := by
  cases h with
  | issue id n l found fence =>
    obtain ⟨leaves, scope, hvalid, hnodes⟩ := hr
    refine ⟨leaves, scope, hvalid, fun id' n' hn' => ?_⟩
    rw [lookup_insert_eq] at hn'
    split_ifs at hn' with hid
    · cases hn'
      exact hid ▸ hnodes id n found
    · exact hnodes id' n' hn'
  | _ => exact hr

theorem KernelStep.planned (hr : cfg.Planned r) (h : KernelStep r r') : cfg.Planned r' := by
  cases h with
  | run r' h => exact h.planned hr
  | commit id fence now n l result h =>
    obtain ⟨leaves, scope, hvalid, hnodes⟩ := hr
    refine ⟨leaves, scope, hvalid, fun id' n' hn' => ?_⟩
    rw [Run.recordResult, lookup_insert_eq] at hn'
    split_ifs at hn' with hid
    · cases hn'
      exact hid ▸ hnodes id n h.found
    · exact hnodes id' n' hn'

theorem planned_run (cfg : Config) (history : List Command) : Ledger.All cfg.Planned (cfg.run history).runs :=
  Ledger.all_run (step_change cfg) (fun _ h => h.2) (fun _ _ hr h => h.planned hr)
    (Ledger.all_empty cfg.Planned) history

instance symm_disjointLeaves (cfg : Config) : Std.Symm (fun a b => cfg.disjointLeaves a b = true) where
  symm a b h := by
    simp only [Config.disjointLeaves, List.all_eq_true, Bool.not_eq_true', Bool.eq_false_iff, ne_eq,
      Config.pathsCollide_iff] at h ⊢
    exact fun p hp q hq hcollide => h q hq p hp hcollide.symm

theorem not_within_both {a b : LeafSpec} (h : cfg.disjointLeaves a b = true) {q : GoString}
    (hfold : cfg.foldPath p = cfg.foldPath q) (hp : cfg.pathWithinScope p a.ownedPaths = true) :
    ¬ cfg.pathWithinScope q b.ownedPaths = true := by
  intro hq
  obtain ⟨root, hroot, hcov⟩ := Config.pathWithinScope_iff.mp hp
  obtain ⟨root', hroot', hcov'⟩ := Config.pathWithinScope_iff.mp hq
  simp only [Config.disjointLeaves, List.all_eq_true, Bool.not_eq_true', Bool.eq_false_iff, ne_eq,
    Config.pathsCollide_iff] at h
  exact h root hroot root' hroot' ((hfold ▸ hcov).comparable hcov')

theorem owned_within_approved {scope : List GoString} {leaf : LeafSpec} (h : LeafSpec.ok cfg scope leaf = true)
    (hp : cfg.pathWithinScope p leaf.ownedPaths = true) : cfg.pathWithinScope p scope = true := by
  simp only [LeafSpec.ok, Bool.and_eq_true, List.all_eq_true] at h
  obtain ⟨root, hroot, hcov⟩ := Config.pathWithinScope_iff.mp hp
  obtain ⟨top, htop, habove⟩ := Config.pathWithinScope_iff.mp (h.1.2 root hroot).2
  exact Config.pathWithinScope_iff.mpr ⟨top, htop, habove.trans hcov⟩

/-- Leaves that are accepted together share no file: two spellings of one path never lie in the scopes of two leaves,
and what a leaf owns is approved. -/
theorem accepted_leaves_disjoint (cfg : Config) (leaves : List LeafSpec) (scope : List GoString)
    (h : cfg.validateLeafSpecs leaves scope = .ok ()) :
    leaves.Pairwise (fun a b => ∀ p q, cfg.foldPath p = cfg.foldPath q →
      ¬ (cfg.pathWithinScope p a.ownedPaths = true ∧ cfg.pathWithinScope q b.ownedPaths = true)) ∧
    ∀ leaf ∈ leaves, ∀ p, cfg.pathWithinScope p leaf.ownedPaths = true → cfg.pathWithinScope p scope = true := by
  obtain ⟨hok, hdisjoint⟩ := validateLeafSpecs_ok h
  refine ⟨hdisjoint.imp fun hab p q hfold h => not_within_both hab hfold h.1 h.2, fun leaf hleaf p hp => ?_⟩
  exact owned_within_approved (hok leaf hleaf) hp

/-- Two leaves below one approved directory. -/
theorem accepted_leaves_disjoint_pair :
    [⟨lit "a", lit "goal", [lit "src/go"], [], []⟩, ⟨lit "b", lit "goal", [lit "SRC/goo"], [], []⟩].Pairwise
      (fun a b : LeafSpec => ∀ p q, foldingConfig.foldPath p = foldingConfig.foldPath q →
        ¬ (foldingConfig.pathWithinScope p a.ownedPaths = true ∧
          foldingConfig.pathWithinScope q b.ownedPaths = true)) :=
  (accepted_leaves_disjoint foldingConfig _ [lit "src"] (by decide +kernel)).1

/-- Two leaves that own a path are the same. -/
theorem owner_unique (hlower : cfg.LowersRunes lower)
    (hr : cfg.Planned r) {id id' : GoString} {n n' : Node} (h : cfg.Owns r id n path)
    (h' : cfg.Owns r id' n' path) : id' = id := by
  obtain ⟨leaves, scope, hvalid, hnodes⟩ := hr
  obtain ⟨⟨hn, hkind⟩, howns⟩ := h
  obtain ⟨⟨hn', hkind'⟩, howns'⟩ := h'
  obtain ⟨leaf, hleaf, rfl, hpaths, -⟩ := hnodes id n hn hkind
  obtain ⟨leaf', hleaf', rfl, hpaths', -⟩ := hnodes id' n' hn' hkind'
  by_contra hne
  have hdisjoint := (validateLeafSpecs_ok hvalid).2.forall hleaf hleaf' fun heq => hne (heq ▸ rfl)
  rw [hpaths, hlower.pathWithinScope_stored] at howns
  rw [hpaths', hlower.pathWithinScope_stored] at howns'
  exact not_within_both hdisjoint rfl howns howns'

theorem pathWithinScope_leafScopes : cfg.pathWithinScope path r.leafScopes = true ↔ ∃ id n, cfg.Owns r id n path := by
  rw [Config.pathWithinScope_iff]
  constructor
  · rintro ⟨root, hroot, hcov⟩
    obtain ⟨id, -, hroot⟩ := List.mem_flatMap.mp hroot
    split at hroot
    · next n hn =>
      split_ifs at hroot with hkind
      · exact ⟨id, n, ⟨hn, hkind⟩, Config.pathWithinScope_iff.mpr ⟨root, hroot, hcov⟩⟩
      · cases hroot
    · cases hroot
  · rintro ⟨id, n, ⟨hn, hkind⟩, howns⟩
    obtain ⟨root, hroot, hcov⟩ := Config.pathWithinScope_iff.mp howns
    refine ⟨root, List.mem_flatMap.mpr ⟨id, mem_sortedKeys.mpr (mem_keys_of_lookup hn), ?_⟩, hcov⟩
    simpa [hn, hkind] using hroot

namespace PreviewEdit

def touched (e : PreviewEdit) : List GoString :=
  if e.operation = some .rename then [e.path, e.oldPath] else [e.path]

def survives (e : PreviewEdit) : Bool := e.operation ≠ some .delete

def consumes (e : PreviewEdit) : Bool := e.operation ≠ some .add

end PreviewEdit

/-- The paths are in scope, and post-images and pre-images are new. -/
theorem checkEdits_ok {scopes : List GoString} {post pre : List GoString}
    (h : cfg.checkEdits scopes edits post pre = .ok ()) :
    (∀ e ∈ edits, ∀ p ∈ e.touched, cfg.pathWithinScope p scopes = true) ∧
      (edits.Pairwise (fun a b => a.path ≠ b.path) ∧ ∀ e ∈ edits, e.path ∉ post) ∧
      (edits.filter (·.consumes)).Pairwise (fun a b => a.preImage ≠ b.preImage) ∧
        ∀ e ∈ edits.filter (·.consumes), e.preImage ∉ pre := by
  induction edits generalizing post pre with
  | nil => simp
  | cons e edits ih =>
    simp only [Config.checkEdits, andThen_eq_ok_iff, guard_eq_ok_iff, not_and, not_not] at h
    obtain ⟨-, hpost, hpre, hscope, hold, h⟩ := h
    obtain ⟨htouched, ⟨hposts, hpostNew⟩, hpres, hpreNew⟩ := ih h
    refine ⟨List.forall_mem_cons.mpr ⟨fun p hp => ?_, htouched⟩, ⟨?_, ?_⟩, ?_⟩
    · unfold PreviewEdit.touched at hp
      split_ifs at hp with hrename
      · rcases List.mem_pair.mp hp with rfl | rfl
        · exact hscope
        · exact hold hrename
      · rw [List.mem_singleton.mp hp]
        exact hscope
    · exact List.pairwise_cons.mpr ⟨fun b hb heq => hpostNew b hb (heq ▸ (.head _)), hposts⟩
    · exact List.forall_mem_cons.mpr ⟨hpost, fun b hb hmem => hpostNew b hb (.tail _ hmem)⟩
    · by_cases hadd : e.operation = some .add
      · rw [List.filter_cons_of_neg (by simp [PreviewEdit.consumes, hadd])]
        rw [if_pos hadd] at hpreNew
        exact ⟨hpres, hpreNew⟩
      · rw [List.filter_cons_of_pos (by simp [PreviewEdit.consumes, hadd])]
        rw [if_neg hadd] at hpreNew
        refine ⟨List.pairwise_cons.mpr ⟨fun b hb heq => hpreNew b hb (heq ▸ (.head _)), hpres⟩, ?_⟩
        exact List.forall_mem_cons.mpr ⟨hpre hadd, fun b hb hmem => hpreNew b hb (.tail _ hmem)⟩

/-- What an accepted preview is for: each path it touches has one owner that is not forbidden to touch it, no two edits
take or leave the same file, and no file that is left is a directory above another; case is folded throughout. -/
structure Config.Inside (cfg : Config) (r : Run) (edits : List PreviewEdit) : Prop where
  owned : ∀ e ∈ edits, ∀ p ∈ e.touched, ∃ id n, cfg.Owns r id n p ∧ (∀ id' n', cfg.Owns r id' n' p → id' = id) ∧
    cfg.pathWithinScope p n.forbiddenPaths = false
  preImages : (edits.filter (·.consumes)).Pairwise (fun a b => cfg.foldPath a.preImage ≠ cfg.foldPath b.preImage)
  postImages : edits.Pairwise (fun a b => cfg.foldPath a.path ≠ cfg.foldPath b.path)
  files : ∀ a ∈ edits, ∀ b ∈ edits, a.survives = true → b.survives = true →
    ¬ cfg.foldPath a.path ++ [slash] <+: cfg.foldPath b.path

/-- No edit reaches a forbidden path of a leaf that owns it, and paths of edits that only case tells apart, or that lie
in each other, are the same path. -/
structure Config.Unambiguous (cfg : Config) (r : Run) (edits : List PreviewEdit) : Prop where
  allowed : ∀ e ∈ edits, ∀ p ∈ e.touched, ∀ id n, cfg.Owns r id n p → cfg.pathWithinScope p n.forbiddenPaths = false
  preImages : ∀ a ∈ edits, ∀ b ∈ edits, a.consumes = true → b.consumes = true →
    cfg.foldPath a.preImage = cfg.foldPath b.preImage → a.preImage = b.preImage
  postImages : ∀ a ∈ edits, ∀ b ∈ edits, cfg.foldPath a.path = cfg.foldPath b.path → a.path = b.path
  files : ∀ a ∈ edits, ∀ b ∈ edits, a.survives = true → b.survives = true → cfg.pathsCollide a.path b.path = true →
    a.path = b.path

/-- Members that only one spelling stands for are told apart by the spelling. -/
theorem pairwise_fold_iff {α : Type} {l : List α} {f g : α → GoString} (h : l.Pairwise (fun a b => f a ≠ f b)) :
    l.Pairwise (fun a b => g a ≠ g b) ↔ ∀ a ∈ l, ∀ b ∈ l, g a = g b → f a = f b := by
  have hsymm : Std.Symm (fun a b => g a ≠ g b) := ⟨fun _ _ h => h.symm⟩
  constructor
  · intro hg a ha b hb heq
    by_contra hne
    exact hg.forall ha hb (fun hab => hne (hab ▸ rfl)) heq
  · intro hg
    exact h.imp_of_mem fun {a b} ha hb hne heq => hne (hg a ha b hb heq)

theorem propose_ok {preview : Preview} {put : GoString → Option GoString} {out : Unit × Run}
    (h : cfg.propose preview put r = .ok out) : cfg.checkEdits r.leafScopes preview.edits [] [] = .ok () := by
  simp only [Config.propose, Config.validatePreview, bind_eq_ok_iff, guard_eq_ok_iff] at h
  obtain ⟨_, -, -, _, ⟨-, -, -, -, _, hedits, -⟩, -⟩ := h
  exact hedits

theorem inside_iff_unambiguous (hlower : cfg.LowersRunes lower)
    (hr : cfg.Planned r) (h : cfg.checkEdits r.leafScopes edits [] [] = .ok ()) :
    cfg.Inside r edits ↔ cfg.Unambiguous r edits := by
  obtain ⟨htouched, ⟨hposts, -⟩, hpres, -⟩ := checkEdits_ok h
  have hpost := pairwise_fold_iff (g := fun e => cfg.foldPath e.path) hposts
  have hpre := pairwise_fold_iff (g := fun e => cfg.foldPath e.preImage) hpres
  simp only [List.mem_filter, and_imp] at hpre
  constructor
  · intro hin
    refine ⟨fun e he p hp id n howns => ?_, fun a ha b hb hca hcb => hpre.mp hin.preImages a ha hca b hb hcb,
      hpost.mp hin.postImages, fun a ha b hb hsa hsb hcollide => ?_⟩
    · obtain ⟨id', n', howns', hunique, hallow⟩ := hin.owned e he p hp
      obtain rfl := hunique id n howns
      obtain rfl : n = n' := Option.some.inj (howns.1.1.symm.trans howns'.1.1)
      exact hallow
    · rcases Config.pathsCollide_iff.mp hcollide with (heq | hnested) | (heq | hnested)
      · exact hpost.mp hin.postImages a ha b hb heq.symm
      · exact absurd hnested (hin.files a ha b hb hsa hsb)
      · exact hpost.mp hin.postImages a ha b hb heq
      · exact absurd hnested (hin.files b hb a ha hsb hsa)
  · intro hun
    refine ⟨fun e he p hp => ?_, hpre.mpr fun a ha hca b hb hcb => hun.preImages a ha b hb hca hcb,
      hpost.mpr hun.postImages, fun a ha b hb hsa hsb hnested => ?_⟩
    · obtain ⟨id, n, howns⟩ := pathWithinScope_leafScopes.mp (htouched e he p hp)
      exact ⟨id, n, howns, fun id' n' howns' => owner_unique hlower hr howns howns', hun.allowed e he p hp id n howns⟩
    · have hsame := hun.files a ha b hb hsa hsb (Config.pathsCollide_iff.mpr (.inl (.inr hnested)))
      rw [hsame] at hnested
      exact not_nested_self _ hnested

/-- In every history a preview that `ProposeCandidate` accepts is inside the authority of the leaves exactly when it
reaches no forbidden path and its edits are told apart without regard to case and to directories. -/
theorem accepted_preview_inside_iff {cfg : Config} {lower : Rune → Rune} (hlower : cfg.LowersRunes lower)
    (history : List Command) {who : Identity} {runID : GoString} {preview : Preview} {put : GoString → Option GoString}
    {r : Run} (hr : (cfg.run history).runs.lookup (who.run runID) = some r) {out : Unit × DB}
    (h : cfg.proposeCandidate (cfg.run history) who runID (some preview) put = .ok out) :
    cfg.Inside r preview.edits ↔ cfg.Unambiguous r preview.edits := by
  simp only [Config.proposeCandidate, DB.onRun, hr, guard_eq_ok_iff, bind_eq_ok_iff] at h
  obtain ⟨-, _, hpropose, -⟩ := h
  exact inside_iff_unambiguous hlower (planned_run cfg history _ r hr) (propose_ok hpropose)

def additionOf (path : GoString) : PreviewEdit :=
  ⟨path, [], 1, some .add, none, some ⟨lit "sha256", List.replicate 64 0x61⟩⟩

def additions (paths : List GoString) : Preview := { examplePreview with edits := paths.map additionOf }

/-- A run whose only leaf owns `src` without `src/secret`. -/
def guardedHistory : List Command :=
  [.admitIntent { exampleRequest with leaves := [⟨lit "leaf", lit "goal", [lit "src"], [lit "src/secret"], []⟩] }
    exampleWorld,
    .transitionRun exampleIdentity (lit "run") (some .ready), .transitionRun exampleIdentity (lit "run")
      (some .running)]

def proposeAdditions (history : List Command) (paths : List GoString) : Except Err (Unit × DB) :=
  foldingConfig.proposeCandidate (foldingConfig.run history) exampleIdentity (lit "run") (some (additions paths))
    (fun _ => some (lit "artifact"))

/-- A forbidden path, one file under two spellings, and a file that is a directory of another. -/
theorem preview_leaves_authority :
    let db := foldingConfig.run guardedHistory
    ∃ r id n, db.runs.lookup (exampleIdentity.run (lit "run")) = some r ∧
      (∃ out, proposeAdditions guardedHistory [lit "src/secret/key"] = .ok out) ∧
      (∃ out, proposeAdditions guardedHistory [lit "src/a", lit "src/A"] = .ok out) ∧
      (∃ out, proposeAdditions guardedHistory [lit "src/a", lit "src/a/b"] = .ok out) ∧
      (foldingConfig.Owns r id n (lit "src/secret/key") ∧
        foldingConfig.pathWithinScope (lit "src/secret/key") n.forbiddenPaths = true) ∧
      (¬ foldingConfig.Inside r (additions [lit "src/a", lit "src/A"]).edits) ∧
      ¬ foldingConfig.Inside r (additions [lit "src/a", lit "src/a/b"]).edits := by
  intro db
  have accepted : ∀ paths, succeeds (proposeAdditions guardedHistory paths) (fun _ => true) = true →
      ∃ out, proposeAdditions guardedHistory paths = .ok out := by
    intro paths h
    obtain ⟨out, hout, -⟩ := succeeds_iff.mp h
    exact ⟨out, hout⟩
  have hrun : (db.runs.lookup (exampleIdentity.run (lit "run"))).any (fun r =>
    (r.nodes.lookup (lit "leaf")).any fun n =>
      n.kind = .leaf ∧ n.ownedPaths = [lit "src"] ∧ n.forbiddenPaths = [lit "src/secret"]) = true := by decide +kernel
  obtain ⟨r, hr, hnode⟩ := (Option.any_eq_true _ _).mp hrun
  obtain ⟨n, hn, hplan⟩ := (Option.any_eq_true _ _).mp hnode
  obtain ⟨hkind, howned, hforb⟩ := of_decide_eq_true hplan
  refine ⟨r, lit "leaf", n, hr, accepted _ (by decide +kernel), accepted _ (by decide +kernel),
    accepted _ (by decide +kernel), ⟨⟨⟨hn, hkind⟩, ?_⟩, ?_⟩, fun h => ?_, fun h => ?_⟩
  · rw [howned]
    decide +kernel
  · rw [hforb]
    decide +kernel
  · exact absurd h.postImages (by decide +kernel)
  · exact h.files (additionOf (lit "src/a")) (by simp [additions]) (additionOf (lit "src/a/b"))
      (by simp [additions]) rfl rfl (by decide +kernel)

/-- A preview of one file in the run without forbidden paths. -/
theorem accepted_preview_inside_file :
    ∃ r, (foldingConfig.run exampleOpening).runs.lookup (exampleIdentity.run (lit "run")) = some r ∧
      foldingConfig.Inside r (additions [lit "src/a.go"]).edits := by
  have hrun : ((foldingConfig.run exampleOpening).runs.lookup (exampleIdentity.run (lit "run"))).any (fun r =>
      all (fun _ n => n.forbiddenPaths = []) r.nodes) = true := by decide +kernel
  obtain ⟨r, hr, hnodes⟩ := (Option.any_eq_true _ _).mp hrun
  have hacc : succeeds (proposeAdditions exampleOpening [lit "src/a.go"]) (fun _ => true) = true := by
    decide +kernel
  obtain ⟨out, hout, -⟩ := succeeds_iff.mp hacc
  refine ⟨r, hr, (accepted_preview_inside_iff foldingConfig_lowers exampleOpening hr hout).mpr ?_⟩
  have hone : ∀ e ∈ (additions [lit "src/a.go"]).edits, e = additionOf (lit "src/a.go") := by simp [additions]
  refine ⟨fun e he p hp id n howns => ?_, fun a ha b hb _ _ _ => ?_, fun a ha b hb _ => ?_, fun a ha b hb _ _ _ => ?_⟩
  · have hnil := all_iff.mp hnodes id n howns.1.1
    rw [of_decide_eq_true hnil]
    rfl
  all_goals rw [hone a ha, hone b hb]

end CodeMemory.Factory
