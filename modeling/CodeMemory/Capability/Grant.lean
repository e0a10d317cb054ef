import CodeMemory.Factory.Types
import CodeMemory.Lib.Path

/-! Bounded grants: attenuation and use. A chain of attenuations is compared with
the uses each of its grants admits. -/

namespace CodeMemory.Capability

open Lib Lib.GoString Lib.Path Lib.GoMap List

@[ext] structure Identifier where
  idNamespace : GoString
  value : GoString
  deriving DecidableEq

structure Digest where
  algorithm : GoString
  hex : GoString
  deriving DecidableEq

/-- The part of `contracts.MappedIdentityFact` that grants are checked against. -/
structure Identity where
  principal : Identifier
  tenant : Identifier
  deriving DecidableEq

/-- Instants are counted from Go's zero time. -/
structure Grant where
  id : GoString
  idNamespace : GoString
  principal : Identifier
  tenant : Identifier
  policyDigest : Digest
  actions : List GoString
  resources : List Identifier
  allowedPaths : List GoString
  limits : GoMap GoString UInt64
  fence : UInt64
  revocationEpoch : UInt64
  expiresAt : Int
  nonce : GoString

structure UseRequest where
  action : GoString
  resource : Identifier
  fence : UInt64
  revocationEpoch : UInt64
  nonce : GoString
  path : GoString
  usage : GoMap GoString UInt64
  now : Int

inductive Err where
  | denied

def validPolicyDigest (d : Digest) : Bool := d.algorithm = lit "sha256" && Factory.isHexDigest d.hex

def validAction (action : GoString) : Bool :=
  action ≠ [] && !decide (lit "*" <:+: action) && !decide (lit "delegate" <:+: action)

def validResource (r : Identifier) : Bool := r.idNamespace ≠ [] && r.value ≠ [] && !decide (lit "*" <:+: r.value)

/-- What allowed paths and requested paths have in common. -/
def relativePath (path : GoString) : Bool :=
  path ≠ [] && !hasPrefix path [slash] && !hasPrefix path (lit "../") && clean path = path

def validPath (path : GoString) : Bool := path ≠ lit "." && relativePath path

def Grant.validate (g : Grant) (now : Int) : Bool :=
  g.id ≠ [] && g.idNamespace = lit "grant" && validPolicyDigest g.policyDigest && g.nonce ≠ [] &&
    g.principal.idNamespace = lit "principal" && g.principal.value ≠ [] && g.tenant.idNamespace = lit "tenant" &&
    g.tenant.value ≠ [] && g.actions ≠ [] && g.resources ≠ [] && g.fence ≠ 0 && g.expiresAt ≠ 0 &&
    now < g.expiresAt && g.actions.all validAction && g.resources.all validResource && g.allowedPaths.all validPath &&
    g.limits.all (fun name limit => name ≠ [] && limit ≠ 0)

def withinPaths (path : GoString) (paths : List GoString) : Bool :=
  paths.any (fun p => path = p || hasPrefix path (p ++ [slash]))

def constrainedPathsSubset (children parents : List GoString) : Bool :=
  if parents = [] then children = []
  else if children = [] then false
  else children.all (withinPaths · parents)

def withinLimit (limits : GoMap GoString UInt64) (name : GoString) (value : UInt64) : Bool :=
  (limits.lookup name).any (value ≤ ·)

def constrainedLimitsSubset (children parents : GoMap GoString UInt64) : Bool :=
  if parents.len = 0 then children.len = 0
  else if children.len = 0 then false
  else children.all (withinLimit parents)

def pathUseAllowed (requested : GoString) (paths : List GoString) : Bool :=
  if paths = [] then requested = []
  else if requested = [] then false
  else relativePath requested && withinPaths requested paths

def usageAllowed (usage limits : GoMap GoString UInt64) : Bool :=
  if limits.len = 0 then usage.len = 0
  else if usage.len ≠ limits.len then false
  else usage.all (fun name used => name ≠ [] && withinLimit limits name used)

/-- `Attenuate`; the copy of the child that it returns has the same fields. -/
def attenuate (parent child : Grant) (now : Int) : Except Err Grant :=
  if parent.validate now && child.validate now && child.id ≠ parent.id && child.principal = parent.principal &&
      child.tenant = parent.tenant && child.fence = parent.fence && child.revocationEpoch = parent.revocationEpoch &&
      child.expiresAt ≤ parent.expiresAt && child.actions.all (· ∈ parent.actions) &&
      child.resources.all (· ∈ parent.resources) && constrainedPathsSubset child.allowedPaths parent.allowedPaths &&
      constrainedLimitsSubset child.limits parent.limits then .ok child
  else .error .denied

def authorizeUse (g : Grant) (identity : Identity) (use : UseRequest) : Bool :=
  g.validate use.now && identity.principal = g.principal && identity.tenant = g.tenant && use.action ≠ [] &&
    use.action ∈ g.actions && use.resource ∈ g.resources && use.fence ≠ 0 && use.fence = g.fence &&
    use.revocationEpoch = g.revocationEpoch && use.nonce ≠ [] && use.nonce = g.nonce &&
    pathUseAllowed use.path g.allowedPaths && usageAllowed use.usage g.limits

variable {g parent child : Grant} {identity : Identity} {use : UseRequest} {p name : GoString}
  {limits children parents : GoMap GoString UInt64} {value : UInt64}

theorem authorizeUse_iff : authorizeUse g identity use = true ↔
      g.validate use.now = true ∧ identity.principal = g.principal ∧ identity.tenant = g.tenant ∧ use.action ≠ [] ∧
        use.action ∈ g.actions ∧ use.resource ∈ g.resources ∧ use.fence ≠ 0 ∧ use.fence = g.fence ∧
        use.revocationEpoch = g.revocationEpoch ∧ use.nonce ≠ [] ∧ use.nonce = g.nonce ∧
        pathUseAllowed use.path g.allowedPaths = true ∧ usageAllowed use.usage g.limits = true := by
  simp only [authorizeUse, Bool.and_eq_true, decide_eq_true_eq, and_assoc]

variable {path : GoString} {paths : List GoString}

theorem withinPaths_iff : withinPaths path paths = true ↔ ∃ p ∈ paths, path = p ∨ p ++ [slash] <+: path := by
  simp [withinPaths, hasPrefix]

/-- A path below a path that is within the scope is within the scope. -/
theorem withinPaths_trans {children parents : List GoString}
    (hsub : children.all (withinPaths · parents) = true) (h : withinPaths path children = true) :
    withinPaths path parents = true := by
  rw [all_eq_true] at hsub
  obtain ⟨c, hc, hpath⟩ := withinPaths_iff.mp h
  obtain ⟨p, hp, hpar⟩ := withinPaths_iff.mp (hsub c hc)
  refine withinPaths_iff.mpr ⟨p, hp, ?_⟩
  rcases hpath with rfl | hpath
  · exact hpar
  · rcases hpar with rfl | hpar
    · exact .inr hpath
    · exact .inr (hpar.trans ((prefix_append c [slash]).trans hpath))

theorem withinPaths_self (hp : p ∈ paths) : withinPaths p paths = true :=
  withinPaths_iff.mpr ⟨p, hp, .inl rfl⟩

theorem constrainedPathsSubset_iff {children parents : List GoString} :
    constrainedPathsSubset children parents = true ↔
      (parents = [] ↔ children = []) ∧ children.all (withinPaths · parents) = true := by
  unfold constrainedPathsSubset
  split_ifs with hp hc
  · subst hp
    simp only [decide_eq_true_eq, true_iff]
    exact ⟨fun h => ⟨h, by simp [h]⟩, fun h => h.1⟩
  · simp [hp, hc]
  · simp [hp, hc]

theorem withinLimit_iff :
    withinLimit limits name value = true ↔ ∃ limit, limits.lookup name = some limit ∧ value ≤ limit := by
  simp [withinLimit, Option.any_eq_true]

theorem constrainedLimitsSubset_iff : constrainedLimitsSubset children parents = true ↔
      (parents = ∅ ↔ children = ∅) ∧ children.all (withinLimit parents) = true := by
  simp only [constrainedLimitsSubset, len_eq_zero]
  split_ifs with hp hc
  · subst hp
    simp only [decide_eq_true_eq, true_iff]
    exact ⟨fun h => ⟨h, by simp [h, all_iff]⟩, fun h => h.1⟩
  · simp [hp, hc]
  · simp [hp, hc]

theorem usageAllowed_iff {usage : GoMap GoString UInt64} : usageAllowed usage limits = true ↔
      usage.len = limits.len ∧ usage.all (fun name used => name ≠ [] && withinLimit limits name used) = true := by
  unfold usageAllowed
  split_ifs with hempty hlen
  · rw [decide_eq_true_iff, hempty]
    exact ⟨fun h => ⟨h, by simp [len_eq_zero.mp h, all_iff]⟩, fun h => h.1⟩
  · simp [hlen]
  · rw [not_not] at hlen
    simp [hlen]

theorem keys_subset_of_all {m : GoMap GoString UInt64} (h : m.all (withinLimit limits) = true) :
    m.keys ⊆ limits.keys := by
  intro name hname
  obtain ⟨value, hvalue⟩ := mem_keys_iff.mp hname
  obtain ⟨limit, hlimit, -⟩ := withinLimit_iff.mp (all_iff.mp h name value hvalue)
  exact mem_keys_of_lookup hlimit

theorem withinLimit_trans (hsub : children.all (withinLimit parents) = true)
     (h : withinLimit children name value = true) : withinLimit parents name value = true := by
  obtain ⟨child, hchild, hle⟩ := withinLimit_iff.mp h
  obtain ⟨parent, hpar, hle'⟩ := withinLimit_iff.mp (all_iff.mp hsub name child hchild)
  exact withinLimit_iff.mpr ⟨parent, hpar, UInt64.le_trans hle hle'⟩

def Grant.Valid (g : Grant) : Prop := ∃ now, g.validate now = true

/-- Everything `validate` asks for but the expiry does not depend on the time. -/
theorem Grant.Valid.validate_iff (h : g.Valid) (now : Int) : g.validate now = true ↔ now < g.expiresAt := by
  obtain ⟨t, ht⟩ := h
  simp only [Grant.validate, Bool.and_eq_true, decide_eq_true_eq] at ht ⊢
  tauto

theorem Grant.Valid.use_fields (h : g.Valid) :
    g.nonce ≠ [] ∧ g.fence ≠ 0 ∧ g.actions ≠ [] ∧ g.resources ≠ [] ∧ (∀ a ∈ g.actions, a ≠ []) ∧
      (∀ p ∈ g.allowedPaths, relativePath p = true) ∧ ∀ name limit, g.limits.lookup name = some limit → name ≠ [] := by
  obtain ⟨t, ht⟩ := h
  simp only [Grant.validate, Bool.and_eq_true, decide_eq_true_eq, all_eq_true, all_iff, validAction,
    validPath, and_assoc] at ht
  obtain ⟨-, -, -, hnonce, -, -, -, -, hactions, hres, hfence, -, -, haction, -, hpath, hlimit⟩ := ht
  exact ⟨hnonce, hfence, hactions, hres, fun a ha => (haction a ha).1, fun p hp => (hpath p hp).2,
    fun name limit hname => (hlimit name limit hname).1⟩

/-- Every dimension of the child is a part of the parent's. -/
structure Narrower (child parent : Grant) : Prop where
  principal : child.principal = parent.principal
  tenant : child.tenant = parent.tenant
  fence : child.fence = parent.fence
  revocationEpoch : child.revocationEpoch = parent.revocationEpoch
  expiresAt : child.expiresAt ≤ parent.expiresAt
  actions : child.actions ⊆ parent.actions
  resources : child.resources ⊆ parent.resources
  paths : (parent.allowedPaths = [] ↔ child.allowedPaths = []) ∧
    child.allowedPaths.all (withinPaths · parent.allowedPaths) = true
  limits : (parent.limits = ∅ ↔ child.limits = ∅) ∧ child.limits.all (withinLimit parent.limits) = true

theorem Narrower.refl (g : Grant) : Narrower g g where
  principal := rfl
  tenant := rfl
  fence := rfl
  revocationEpoch := rfl
  expiresAt := le_rfl
  actions := List.Subset.refl _
  resources := List.Subset.refl _
  paths := ⟨Iff.rfl, all_eq_true.mpr fun _ hp => withinPaths_self hp⟩
  limits := ⟨Iff.rfl, all_iff.mpr fun _ limit h => withinLimit_iff.mpr ⟨limit, h, UInt64.le_refl limit⟩⟩

theorem Narrower.trans {a b c : Grant} (h₁ : Narrower a b) (h₂ : Narrower b c) : Narrower a c where
  principal := h₁.principal.trans h₂.principal
  tenant := h₁.tenant.trans h₂.tenant
  fence := h₁.fence.trans h₂.fence
  revocationEpoch := h₁.revocationEpoch.trans h₂.revocationEpoch
  expiresAt := h₁.expiresAt.trans h₂.expiresAt
  actions := List.Subset.trans h₁.actions h₂.actions
  resources := List.Subset.trans h₁.resources h₂.resources
  paths := by
    refine ⟨h₂.paths.1.trans h₁.paths.1, all_eq_true.mpr fun p hp => ?_⟩
    exact withinPaths_trans h₂.paths.2 (all_eq_true.mp h₁.paths.2 p hp)
  limits := by
    refine ⟨h₂.limits.1.trans h₁.limits.1, all_iff.mpr fun name limit h => ?_⟩
    exact withinLimit_trans h₂.limits.2 (all_iff.mp h₁.limits.2 name limit h)

def Delegates (parent child : Grant) : Prop := ∃ request now, attenuate parent request now = .ok child

theorem Delegates.narrower (h : Delegates parent child) : parent.Valid ∧ child.Valid ∧ Narrower child parent := by
  obtain ⟨request, now, h⟩ := h
  unfold attenuate at h
  split at h
  · next hok =>
    cases h
    simp only [Bool.and_eq_true, and_assoc] at hok
    obtain ⟨hpar, hchild, -, hprin, htenant, hfence, hepoch, hexpires, hactions, hres, hpaths, hlimits⟩ :=
      hok
    refine ⟨⟨now, hpar⟩, ⟨now, hchild⟩, ?_⟩
    rw [decide_eq_true_iff] at hprin htenant hfence hepoch hexpires
    refine ⟨hprin, htenant, hfence, hepoch, hexpires, ?_, ?_, constrainedPathsSubset_iff.mp hpaths,
      constrainedLimitsSubset_iff.mp hlimits⟩
    · exact fun a ha => of_decide_eq_true (all_eq_true.mp hactions a ha)
    · exact fun r hr => of_decide_eq_true (all_eq_true.mp hres r hr)
  · cases h

/-- The last grant of a chain is narrower than each of the others. -/
theorem narrower_getLast {root : Grant} {chain : List Grant} (hroot : root.Valid)
    (hchain : List.IsChain Delegates (root :: chain)) :
    ∀ a ∈ root :: chain, a.Valid ∧ Narrower ((root :: chain).getLast (cons_ne_nil _ _)) a := by
  induction chain generalizing root with
  | nil =>
    intro a ha
    rw [mem_singleton] at ha
    subst ha
    exact ⟨hroot, .refl a⟩
  | cons child chain ih =>
    rw [isChain_cons_cons] at hchain
    obtain ⟨-, hvalid, hnarrow⟩ := hchain.1.narrower
    have ih := ih hvalid hchain.2
    intro a ha
    rcases mem_cons.mp ha with rfl | ha
    · exact ⟨hroot, (ih child (.head _)).2.trans hnarrow⟩
    · exact ih a ha

section

variable (h : Narrower child parent)
include h

theorem pathUseAllowed_of_narrower
    (huse : pathUseAllowed path child.allowedPaths = true) : pathUseAllowed path parent.allowedPaths = true := by
  unfold pathUseAllowed at huse ⊢
  by_cases hempty : parent.allowedPaths = []
  · rw [if_pos (h.paths.1.mp hempty)] at huse
    rwa [if_pos hempty]
  · rw [if_neg (fun hc => hempty (h.paths.1.mpr hc))] at huse
    split_ifs at huse ⊢
    rw [Bool.and_eq_true] at huse ⊢
    exact ⟨huse.1, withinPaths_trans h.paths.2 huse.2⟩

theorem usageAllowed_of_narrower
    (hkeys : parent.limits.keys = child.limits.keys) {usage : GoMap GoString UInt64}
    (huse : usageAllowed usage child.limits = true) : usageAllowed usage parent.limits = true := by
  rw [usageAllowed_iff] at huse ⊢
  refine ⟨by rw [huse.1, len, len, hkeys], all_iff.mpr fun name used hname => ?_⟩
  have hused := all_iff.mp huse.2 name used hname
  rw [Bool.and_eq_true] at hused ⊢
  exact ⟨hused.1, withinLimit_trans h.limits.2 hused.2⟩

/-- A use that meters every limit as far as it goes shows which limits the grant has. -/
theorem keys_eq_of_usageAllowed
    (huse : usageAllowed child.limits parent.limits = true) : parent.limits.keys = child.limits.keys := by
  rw [usageAllowed_iff] at huse
  exact (Finset.eq_of_subset_of_card_le (keys_subset_of_all h.limits.2) huse.1.ge).symm

end

/-- With the same limits metered, a use of the narrower grant is a use of the other. -/
theorem authorizeUse_of_narrower (hvalid : parent.Valid) (h : Narrower child parent)
    (hkeys : parent.limits.keys = child.limits.keys) (huse : authorizeUse child identity use = true) :
    authorizeUse parent identity { use with nonce := parent.nonce } = true := by
  obtain ⟨hchild, hprin, htenant, hnonempty, haction, hres, hfence, hcur, hepoch, -, -, hpath, husage⟩ :=
    authorizeUse_iff.mp huse
  have hnow : use.now < child.expiresAt := by
    have hchild' : child.Valid := ⟨use.now, hchild⟩
    exact (hchild'.validate_iff use.now).mp hchild
  have hpar : parent.validate use.now = true :=
    (hvalid.validate_iff use.now).mpr (lt_of_lt_of_le hnow h.expiresAt)
  exact authorizeUse_iff.mpr ⟨hpar, hprin.trans h.principal, htenant.trans h.tenant, hnonempty,
    h.actions haction, h.resources hres, hfence, hcur.trans h.fence, hepoch.trans h.revocationEpoch,
    hvalid.use_fields.1, rfl, pathUseAllowed_of_narrower h hpath, usageAllowed_of_narrower h hkeys husage⟩

/-- The use of a grant at its last instant that meters every limit in full. -/
def Grant.fullUse (g : Grant) (path : GoString) : UseRequest where
  action := g.actions.headD []
  resource := g.resources.headD ⟨[], []⟩
  fence := g.fence
  revocationEpoch := g.revocationEpoch
  nonce := g.nonce
  path := path
  usage := g.limits
  now := g.expiresAt - 1

def Grant.holder (g : Grant) : Identity := ⟨g.principal, g.tenant⟩

theorem usageAllowed_self (h : g.Valid) : usageAllowed g.limits g.limits = true := by
  obtain ⟨-, -, -, -, -, -, hnames⟩ := h.use_fields
  refine usageAllowed_iff.mpr ⟨rfl, all_iff.mpr fun name limit hname => ?_⟩
  rw [Bool.and_eq_true, decide_eq_true_iff]
  exact ⟨hnames name limit hname, withinLimit_iff.mpr ⟨limit, hname, UInt64.le_refl limit⟩⟩

theorem authorizeUse_fullUse (h : g.Valid)
    (hpath : pathUseAllowed path g.allowedPaths = true) : authorizeUse g g.holder (g.fullUse path) = true := by
  obtain ⟨hnonce, hfence, hactions, hres, hnonempty, -, -⟩ := h.use_fields
  have hnow : g.validate (g.expiresAt - 1) = true := (h.validate_iff _).mpr (by omega)
  have haction : g.actions.headD [] ∈ g.actions := by
    obtain ⟨a, as, has⟩ := exists_cons_of_ne_nil hactions
    simp [has]
  have hresource : g.resources.headD ⟨[], []⟩ ∈ g.resources := by
    obtain ⟨r, rs, hrs⟩ := exists_cons_of_ne_nil hres
    simp [hrs]
  exact authorizeUse_iff.mpr ⟨hnow, rfl, rfl, hnonempty _ haction, haction, hresource, hfence, rfl, rfl, hnonce, rfl,
    hpath, usageAllowed_self h⟩

theorem pathUseAllowed_self (hrel : relativePath p = true) (hp : p ∈ paths) : pathUseAllowed p paths = true := by
  have hp' : p ≠ [] := by
    rintro rfl
    simp [relativePath] at hrel
  rw [pathUseAllowed, if_neg (ne_nil_of_mem hp), if_neg hp', hrel, withinPaths_self hp]
  rfl

/-- Some path can be used under every valid grant. -/
theorem exists_pathUseAllowed (h : g.Valid) : ∃ path, pathUseAllowed path g.allowedPaths = true := by
  obtain ⟨-, -, -, -, -, hpaths, -⟩ := h.use_fields
  cases hg : g.allowedPaths with
  | nil => exact ⟨[], rfl⟩
  | cons p ps =>
    have hp : p ∈ g.allowedPaths := by simp [hg]
    exact ⟨p, by rw [← hg]; exact pathUseAllowed_self (hpaths p hp) hp⟩

/-- The relative path `..` passes every check of the shape of a path, and only this one goes up. -/
theorem dotdot_mem_iff (h : pathUseAllowed path paths = true) : lit ".." ∈ path.splitOn slash ↔ path = lit ".." := by
  constructor
  · intro hmem
    unfold pathUseAllowed at h
    split_ifs at h with hempty hnil
    · rw [decide_eq_true_iff.mp h] at hmem
      exact absurd hmem (by decide)
    · simp only [relativePath, Bool.and_eq_true, Bool.not_eq_true', decide_eq_true_eq] at h
      obtain ⟨⟨⟨⟨-, hrel⟩, hup⟩, hclean⟩, -⟩ := h
      rcases starts_dotdot_of_clean hrel hclean hmem with hdots | hdots
      · exact hdots
      · rw [hup] at hdots
        cases hdots
  · rintro rfl
    decide

theorem pathUseAllowed_dotdot_iff : pathUseAllowed (lit "..") paths = true ↔ lit ".." ∈ paths := by
  constructor
  · intro h
    unfold pathUseAllowed at h
    split_ifs at h with hempty hnil
    · exact absurd h (by decide)
    · rw [Bool.and_eq_true] at h
      obtain ⟨p, hp, hin⟩ := withinPaths_iff.mp h.2
      rcases hin with rfl | hin
      · exact hp
      · have hslash : slash ∈ lit ".." := hin.subset (by simp)
        exact absurd hslash (by decide)
  · exact pathUseAllowed_self (by decide)

/-- A use of the last grant of a chain that is admitted, apart from the nonce, by every grant before it, and that does
not name a path with an element `..`. -/
def Confined (chain : List Grant) (identity : Identity) (use : UseRequest) : Prop :=
  (∀ a ∈ chain, authorizeUse a identity { use with nonce := a.nonce } = true) ∧ lit ".." ∉ use.path.splitOn slash

/-- Along a chain of attenuations the uses of the last grant are uses of every grant before it exactly when no link
drops a limit, and they stay below exactly when the last grant does not list the path `..`. -/
theorem attenuation_confines_iff (root : Grant) (chain : List Grant) (hroot : root.Valid)
    (hchain : List.IsChain Delegates (root :: chain)) :
    let last := (root :: chain).getLast (cons_ne_nil _ _)
    (∀ identity use, authorizeUse last identity use = true → Confined (root :: chain) identity use) ↔
      (∀ a ∈ root :: chain, a.limits.keys = last.limits.keys) ∧ lit ".." ∉ last.allowedPaths := by
  intro last
  have hall := narrower_getLast hroot hchain
  have hlast : last.Valid := (hall last (getLast_mem _)).1
  constructor
  · intro h
    constructor
    · intro a ha
      obtain ⟨path, hpath⟩ := exists_pathUseAllowed hlast
      have huse := (h last.holder (last.fullUse path) (authorizeUse_fullUse hlast hpath)).1 a ha
      obtain ⟨-, -, -, -, -, -, -, -, -, -, -, -, husage⟩ := authorizeUse_iff.mp huse
      exact keys_eq_of_usageAllowed (hall a ha).2 husage
    · intro hdots
      have hpath := pathUseAllowed_dotdot_iff.mpr hdots
      exact (h last.holder (last.fullUse (lit "..")) (authorizeUse_fullUse hlast hpath)).2
        ((dotdot_mem_iff hpath).mpr rfl)
  · rintro ⟨hkeys, hdots⟩ identity use huse
    refine ⟨fun a ha => authorizeUse_of_narrower (hall a ha).1 (hall a ha).2 (hkeys a ha) huse, fun hmem => ?_⟩
    obtain ⟨-, -, -, -, -, -, -, -, -, -, -, hpath, -⟩ := authorizeUse_iff.mp huse
    rw [(dotdot_mem_iff hpath).mp hmem] at hpath
    exact hdots (pathUseAllowed_dotdot_iff.mp hpath)

def sampleGrant (id : GoString) (paths : List GoString) (limits : List (GoString × UInt64)) : Grant where
  id := id
  idNamespace := lit "grant"
  principal := ⟨lit "principal", lit "p"⟩
  tenant := ⟨lit "tenant", lit "t"⟩
  policyDigest := ⟨lit "sha256", List.replicate 64 0x30⟩
  actions := [lit "file.read"]
  resources := [⟨lit "repository", lit "r"⟩]
  allowedPaths := paths
  limits := limits.foldl (fun m l => m.insert l.1 l.2) ∅
  fence := 1
  revocationEpoch := 0
  expiresAt := 10
  nonce := lit "n"

def meteredGrant : Grant := sampleGrant (lit "a") [lit "src"] [(lit "bytes", 8), (lit "calls", 2)]

/-- A use under the child that meters no calls, and one of a path above the repository. -/
theorem attenuation_escapes :
    ∃ root child use, root.Valid ∧ Delegates root child ∧ authorizeUse child child.holder use = true ∧
      (¬ Confined [root, child] child.holder use) ∧
      ∃ up use', up.Valid ∧ authorizeUse up up.holder use' = true ∧ ¬ Confined [up] up.holder use' := by
  let child := sampleGrant (lit "b") [lit "src"] [(lit "bytes", 8)]
  let up := sampleGrant (lit "c") [lit ".."] []
  refine ⟨meteredGrant, child, child.fullUse (lit "src"), ⟨0, by decide +kernel⟩, ⟨child, 0, ?_⟩, by decide +kernel, ?_,
    up, up.fullUse (lit ".."), ⟨0, by decide +kernel⟩, by decide +kernel, ?_⟩
  · rw [attenuate, if_pos (by decide +kernel)]
  · intro h
    have huse := h.1 meteredGrant (.head _)
    exact absurd huse (by decide +kernel)
  · exact fun h => h.2 (by decide +kernel)

theorem attenuation_confines_narrowed :
    ∃ child, Delegates meteredGrant child ∧ ∀ identity use, authorizeUse child identity use = true →
      Confined [meteredGrant, child] identity use := by
  let child := sampleGrant (lit "b") [lit "src/lib"] [(lit "bytes", 4), (lit "calls", 2)]
  have hdelegates : Delegates meteredGrant child := ⟨child, 0, by rw [attenuate, if_pos (by decide +kernel)]⟩
  refine ⟨child, hdelegates, ?_⟩
  refine (attenuation_confines_iff meteredGrant [child] ⟨0, by decide +kernel⟩ (by simpa using hdelegates)).mpr ?_
  refine ⟨fun a ha => ?_, by decide +kernel⟩
  rcases mem_pair.mp ha with rfl | rfl
  · decide +kernel
  · rfl

end CodeMemory.Capability
