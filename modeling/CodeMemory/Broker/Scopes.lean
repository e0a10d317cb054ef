import CodeMemory.Broker.Effects
import CodeMemory.Factory.Kernel

/-! The two readings of a scope. The kernel compares paths after folding their case,
the broker compares their bytes. They agree on an edit whose place in the lists is
settled by letters that have one spelling, or that lies outside however it is spelled. -/

namespace CodeMemory.Broker

open Lib Lib.GoString Lib.Path Capability
open Factory (Config validRepositoryPath)

/-- The same edit with its paths spelled in another way. -/
structure Respells (cfg : Config) (e e' : Edit) : Prop where
  op : e'.op = e.op
  valid : ∀ p ∈ e'.paths, validRepositoryPath p = true
  path : cfg.foldPath e'.path = cfg.foldPath e.path
  oldPath : e.op = .rename → cfg.foldPath e'.oldPath = cfg.foldPath e.oldPath

/-- The path is under an entry of the list all of whose letters have one spelling. -/
def Covered (cfg : Config) (lower : Rune → Rune) (entries : List GoString) (path : GoString) : Prop :=
  ∃ root ∈ entries, cfg.pathWithinScope path [root] = true ∧ OneSpelling lower (root ++ [slash])

/-- The path is outside the owned or the allowed paths however it is spelled, or under a forbidden entry that has one
spelling. -/
def KeptOut (cfg : Config) (lower : Rune → Rune) (leaf : Leaf) (path : GoString) : Prop :=
  cfg.pathWithinScope path leaf.scope.ownedPaths = false ∨ cfg.pathWithinScope path leaf.grant.allowedPaths = false ∨
    Covered cfg lower leaf.scope.forbiddenPaths path

/-- The path is under an owned and an allowed entry that have one spelling and under no forbidden entry however that is
spelled, and no letter of it is written as an invalid byte is. -/
structure LetIn (cfg : Config) (lower : Rune → Rune) (leaf : Leaf) (path : GoString) : Prop where
  owned : Covered cfg lower leaf.scope.ownedPaths path
  allowed : Covered cfg lower leaf.grant.allowedPaths path
  forbidden : cfg.pathWithinScope path leaf.scope.forbiddenPaths = false
  letters : ∀ r ∈ runes path, encodeRune (lower r) ≠ encodeRune (lower runeError)

variable {cfg : Config} {lower : Rune → Rune} {leaf : Leaf} {e e' : Edit} {path p q : GoString}
  {entries : List GoString}

theorem Respells.paths (h : Respells cfg e e') :
    (∀ p ∈ e.paths, ∃ q ∈ e'.paths, cfg.foldPath q = cfg.foldPath p) ∧
      ∀ q ∈ e'.paths, ∃ p ∈ e.paths, cfg.foldPath q = cfg.foldPath p := by
  unfold Edit.paths
  rw [h.op]
  split_ifs with hop
  · simp [h.path, h.oldPath hop]
  · simp [h.path]

/-- What the broker finds under an entry, the kernel finds there too. -/
theorem pathWithinScope_of_withinAny (h : cfg.LowersRunes lower) (hin : withinAny path entries = true) :
    cfg.pathWithinScope path entries = true := by
  obtain ⟨p, hp, hpath⟩ := withinAny_iff.mp hin
  exact h.pathWithinScope_of_beneath hp hpath

/-- Every spelling of a covered path is under the entry byte for byte. -/
theorem Covered.withinAny_eq_true (h : cfg.LowersRunes lower) (hp : Covered cfg lower entries p)
    (hfold : cfg.foldPath q = cfg.foldPath p) : withinAny q entries = true := by
  obtain ⟨root, hroot, hin, hone⟩ := hp
  refine withinAny_iff.mpr ⟨root, hroot, ?_⟩
  rw [← Config.pathWithinScope_congr hfold, Config.pathWithinScope, List.any_cons, List.any_nil, Bool.or_false,
    Bool.or_eq_true, decide_eq_true_eq, hasPrefix, List.isPrefixOf_iff_prefix] at hin
  -- with the separator behind both, the entry is a beginning of the path in either case
  have hends : ∀ s, cfg.foldPath (s ++ [slash]) = cfg.foldPath s ++ [slash] := fun s => by
    rw [h.foldPath_append]
    simp only [Config.foldPath, h.toLower_eq]
    rfl
  have hstart : cfg.foldPath (root ++ [slash]) <+: cfg.foldPath (q ++ [slash]) := by
    rw [hends, hends]
    rcases hin with heq | hbelow
    · rw [heq]
    · exact hbelow.trans (List.prefix_append _ _)
  obtain ⟨u, hu⟩ := hstart
  rw [Config.foldPath, Config.foldPath, h.toLower_eq] at hu
  obtain ⟨v, hv, -⟩ := hone.append_of_mapRunes hu.symm
  rcases v.eq_nil_or_concat with rfl | ⟨rest, b, rfl⟩
  · exact .inl (List.append_cancel_right (hv.trans (List.append_nil _)))
  · rw [List.concat_eq_append, ← List.append_assoc] at hv
    exact .inr ⟨rest, (List.append_inj' hv rfl).1.symm⟩

/-- A path the kernel takes is one the broker takes, where it is valid UTF-8. -/
theorem validatePath_of_validRepositoryPath (h : validRepositoryPath q = true) (hutf : validString q = true) :
    validatePath q = .ok () ∧ hasPrefix q [slash] = false := by
  simp only [validRepositoryPath, Bool.and_eq_true, decide_eq_true_eq, List.all_eq_true, Bool.not_eq_true',
    bne_iff_ne] at h
  obtain ⟨⟨⟨⟨⟨hne, hlen⟩, habs⟩, -⟩, hrunes⟩, hsegs⟩ := h
  have hclean : clean q = q := by
    rw [← join_elems q]
    exact clean_join (List.splitOn_ne_nil _ _) fun c hc =>
      ⟨(hsegs c hc).1.1, notMem_of_mem_splitOn hc, (hsegs c hc).1.2, (hsegs c hc).2⟩
  have hback : 0x5C ∉ q := fun hmem => (hrunes _ (toNat_mem_runes (by decide) hmem)).1.1 rfl
  simp only [validatePath, Result.guard_eq_ok_iff, and_true]
  refine ⟨⟨?_, ?_, ?_⟩, habs⟩
  · simp [hne, hlen, hutf, habs, hback, hclean, maxPathBytes]
  · rintro ⟨seg, hseg, hbad⟩
    have := hsegs seg hseg
    tauto
  · rintro ⟨r, hr, hbad⟩
    obtain ⟨⟨-, hge⟩, hdel⟩ := hrunes r hr
    exact hbad.elim (Nat.not_lt.mpr hge) hdel

/-- No spelling of a path kept out is authorized. -/
theorem KeptOut.authorizePath_ne_ok (h : cfg.LowersRunes lower) (hp : KeptOut cfg lower leaf p)
    (hfold : cfg.foldPath q = cfg.foldPath p) : authorizePath leaf q ≠ .ok () := by
  rw [Ne, authorizePath_eq_ok_iff]
  rintro ⟨-, -, hforb, howned, hallow⟩
  rcases hp with hp | hp | hp
  · rw [← Config.pathWithinScope_congr hfold, pathWithinScope_of_withinAny h howned] at hp
    cases hp
  · rw [← Config.pathWithinScope_congr hfold, pathWithinScope_of_withinAny h hallow] at hp
    cases hp
  · rw [hp.withinAny_eq_true h hfold] at hforb
    cases hforb

/-- Every spelling of a path let in is authorized. -/
theorem LetIn.authorizePath_eq_ok (h : cfg.LowersRunes lower) (hp : LetIn cfg lower leaf p)
    (hfold : cfg.foldPath q = cfg.foldPath p) (hvalid : validRepositoryPath q = true) :
    authorizePath leaf q = .ok () := by
  have hutf : validString q = true := by
    refine validString_of_notMem fun hmem => ?_
    rw [Config.foldPath, Config.foldPath, h.toLower_eq] at hfold
    obtain ⟨r, hr, heq⟩ := exists_rune_of_mapRunes_eq hfold hmem
    exact hp.letters r hr heq
  have hforb : withinAny q leaf.scope.forbiddenPaths = false := by
    rw [← Bool.not_eq_true]
    intro hforb
    have hin := pathWithinScope_of_withinAny h hforb
    rw [Config.pathWithinScope_congr hfold, hp.forbidden] at hin
    cases hin
  obtain ⟨hpath, habs⟩ := validatePath_of_validRepositoryPath hvalid hutf
  exact authorizePath_eq_ok_iff.mpr
    ⟨hpath, habs, hforb, hp.owned.withinAny_eq_true h hfold, hp.allowed.withinAny_eq_true h hfold⟩

/-- Every spelling of the edit is authorized or none is, and an authorized one stays out of the folded forbidden
paths. -/
def ReadsAlike (cfg : Config) (w : World) (leaf : Leaf) (e : Edit) : Prop :=
  (∀ e', Respells cfg e e' → (w.authorizeMutation leaf e' = .ok () ↔ w.authorizeMutation leaf e = .ok ())) ∧
    (w.authorizeMutation leaf e = .ok () → ∀ p ∈ e.paths, cfg.pathWithinScope p leaf.scope.forbiddenPaths = false)

/-- Where the leaf may write at all, the broker reads an edit as the kernel does if a path of it is kept out or each is
let in. -/
theorem reads_alike (h : cfg.LowersRunes lower) (w : World) (leaf : Leaf) (e : Edit)
    (hvalid : ∀ p ∈ e.paths, validRepositoryPath p = true) (hletters : w.admitsWrites leaf →
      (∃ p ∈ e.paths, KeptOut cfg lower leaf p) ∨ ∀ p ∈ e.paths, LetIn cfg lower leaf p) : ReadsAlike cfg w leaf e := by
  unfold ReadsAlike
  simp only [authorizeMutation_eq_ok_iff]
  constructor
  · intro e' he'
    refine and_congr_right fun hw => ?_
    rcases hletters hw with ⟨p, hp, hout⟩ | hin
    · obtain ⟨q, hq, hfold⟩ := he'.paths.1 p hp
      exact iff_of_false (fun hall => hout.authorizePath_ne_ok h hfold (hall q hq))
        fun hall => hout.authorizePath_ne_ok h rfl (hall p hp)
    · refine iff_of_true (fun q hq => ?_) fun p hp => (hin p hp).authorizePath_eq_ok h rfl (hvalid p hp)
      obtain ⟨p, hp, hfold⟩ := he'.paths.2 q hq
      exact (hin p hp).authorizePath_eq_ok h hfold (he'.valid q hq)
  · rintro ⟨hw, hall⟩
    rcases hletters hw with ⟨p, hp, hout⟩ | hin
    · exact absurd (hall p hp) (hout.authorizePath_ne_ok h rfl)
    · exact fun p hp => (hin p hp).forbidden

def exampleWorld : World where
  now := 1
  currentFence := fun _ => some (1, 10)
  policyCheck := fun _ _ => some ⟨true, 0⟩

def exampleLeaf (grantID tenant : GoString) (owned forbidden : List GoString) : Leaf where
  identity := ⟨⟨lit "principal", lit "p"⟩, ⟨lit "tenant", tenant⟩⟩
  grant :=
    { grantID := ⟨lit "grant", grantID⟩
      initiator := ⟨lit "principal", lit "p"⟩
      tenant := ⟨lit "tenant", tenant⟩
      lease := ⟨⟨lit "lease", lit "l"⟩, ⟨lit "principal", lit "p"⟩, 1, 10⟩
      actions := [actionFileWrite]
      resources := [⟨lit "repository", lit "r"⟩]
      repositoryGitOID := Factory.exampleBase
      allowedPaths := owned
      nonce := lit "n"
      revocationEpoch := 0
      expiresAt := 10
      policyDigest := ⟨lit "sha256", List.replicate 64 0x30⟩
      commandFence := 1 }
  scope := ⟨owned, forbidden, Factory.exampleBase⟩

def editOf (path : GoString) : Edit := ⟨path, [], .modify, .go, ⟨[], []⟩, ⟨[], []⟩, []⟩

def secretLeaf : Leaf := exampleLeaf (lit "g") (lit "t") [lit "src"] [lit "src/secret"]

/-- The kernel accepts the lists; the broker lets `src/Secret/key.go` through, which the kernel reads as a path under
`src/secret`, and keeps out `SRC/a.go`, which the kernel reads as `src/a.go`. -/
theorem broker_reads_bytes :
    Factory.foldingConfig.validateLeafSpecs
        [⟨lit "leaf", lit "goal", secretLeaf.scope.ownedPaths, secretLeaf.scope.forbiddenPaths, []⟩] [lit "src"] =
          .ok () ∧
      (exampleWorld.authorizeMutation secretLeaf (editOf (lit "src/Secret/key.go")) = .ok () ∧
        Factory.foldingConfig.pathWithinScope (lit "src/Secret/key.go") secretLeaf.scope.forbiddenPaths = true) ∧
      validRepositoryPath (lit "src/a.go") = true ∧ validRepositoryPath (lit "SRC/a.go") = true ∧
      Factory.foldingConfig.foldPath (lit "SRC/a.go") = Factory.foldingConfig.foldPath (lit "src/a.go") ∧
      exampleWorld.authorizeMutation secretLeaf (editOf (lit "src/a.go")) = .ok () ∧
      exampleWorld.authorizeMutation secretLeaf (editOf (lit "SRC/a.go")) = .error .escapePathScope := by
  decide +kernel

/-- Digits have one spelling, so every spelling of a path under them is authorized; outside the owned scope none is. -/
theorem reads_alike_digits :
    ReadsAlike Factory.foldingConfig exampleWorld (exampleLeaf (lit "g") (lit "t") [lit "1"] [lit "1/2"])
        (editOf (lit "1/a.go")) ∧
      ReadsAlike Factory.foldingConfig exampleWorld secretLeaf (editOf (lit "docs/a.md")) := by
  have hone : OneSpelling Factory.asciiLower (lit "1/") := by
    have hdigit : ∀ b : UInt8, b < 0x41 → ∀ r, encodeRune (Factory.asciiLower r) = [b] → r = b.toNat := by
      intro b hb r h
      have hlower := eq_toNat_of_encodeRune h
      unfold Factory.asciiLower at hlower
      split_ifs at hlower with hcase
      · have hlarge : 0x41 ≤ b.toNat := hlower ▸ hcase.1.trans (Nat.le_add_right _ 0x20)
        exact absurd (UInt8.lt_iff_toNat_lt.mp hb) (Nat.not_lt.mpr hlarge)
      · exact hlower
    intro r hr
    obtain rfl | rfl : r = 0x31 ∨ r = 0x2F := by revert r; decide +kernel
    · exact ⟨by decide, hdigit 0x31 (by decide)⟩
    · exact ⟨by decide, hdigit 0x2F (by decide)⟩
  have hin : Covered Factory.foldingConfig Factory.asciiLower [lit "1"] (lit "1/a.go") :=
    ⟨lit "1", .head _, by decide +kernel, hone⟩
  constructor
  · refine reads_alike Factory.foldingConfig_lowers _ _ _ (by decide +kernel) fun _ => .inr fun p hp => ?_
    obtain rfl : p = lit "1/a.go" := by simpa [editOf, Edit.paths] using hp
    exact ⟨hin, hin, by decide +kernel, by decide +kernel⟩
  · exact reads_alike Factory.foldingConfig_lowers _ _ _ (by decide +kernel) fun _ =>
      .inl ⟨lit "docs/a.md", by decide +kernel, .inl (by decide +kernel)⟩

end CodeMemory.Broker
