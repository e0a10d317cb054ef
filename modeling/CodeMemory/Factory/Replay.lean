import CodeMemory.Factory.Steps
import CodeMemory.Lib.Frames

/-! Replays of an admission. A request is compared with the first one under its
idempotency key by one digest. The row with the digest stays for ever, and the digest
covers every fact of a request except the approved scope. -/

namespace CodeMemory.Factory

open Lib Lib.GoString Lib.Frames Lib.Result List

def identityText (domain : GoString) (fields : List GoString) : GoString :=
  frames (bytesBE 8) [] (domain :: fields)

/-- An identity is the digest of its fields, each written after its length. -/
def Config.HashesFields (cfg : Config) : Prop :=
  ∀ domain fields, cfg.identity domain fields = cfg.digestBytes (identityText domain fields)

def admitDomain : GoString := lit "ouroboros.stage05.admit-request.v1"

def reviewField (review : Bool) : List GoString := if review then [lit "review"] else []

namespace Config

variable (cfg : Config)

def leafFields (leaf : LeafSpec) : List GoString :=
  [leaf.nodeID, cfg.digestBytes leaf.goal, joinPaths leaf.ownedPaths, joinPaths leaf.forbiddenPaths,
    leaf.holderPrincipal]

def requestFields (intentDigest : GoString) (request : AdmitRequest) : List GoString :=
  intentDigest :: request.leaves.flatMap cfg.leafFields ++ reviewField request.review

theorem admissionRequestDigest_eq (intentDigest : GoString) (request : AdmitRequest) :
    cfg.admissionRequestDigest intentDigest request = cfg.identity admitDomain
      (cfg.requestFields intentDigest request) :=
  rfl

def hashedTexts (encoded : GoString) (request : AdmitRequest) : List GoString :=
  encoded :: identityText admitDomain (cfg.requestFields (cfg.digestBytes encoded) request) ::
    request.leaves.map (·.goal)

def CollisionFree (texts : List GoString) : Prop :=
  ∀ s ∈ texts, ∀ t ∈ texts, cfg.digestBytes s = cfg.digestBytes t → s = t

end Config

variable {path encoded : GoString}

section

variable (h : validRepositoryPath path = true)
include h

theorem notMem_of_validRepositoryPath : 0x1F ∉ path := by
  simp only [validRepositoryPath, Bool.and_eq_true, all_eq_true] at h
  intro hmem
  have hrune := h.1.2 _ (toNat_mem_runes (by decide) hmem)
  revert hrune
  decide

theorem ne_nil_of_validRepositoryPath : path ≠ [] := by
  rintro rfl
  revert h
  decide

theorem length_of_validRepositoryPath : path.length ≤ 4096 := by
  simp only [validRepositoryPath, Bool.and_eq_true, decide_eq_true_eq] at h
  exact h.1.1.1.1.2

end

theorem joinPaths_cons_cons (p q : GoString) (paths : List GoString) :
    joinPaths (p :: q :: paths) = p ++ 0x1F :: joinPaths (q :: paths) := by
  simp [joinPaths, List.intercalate]

variable {paths scope : List GoString} {review review' : Bool} {request : AdmitRequest} {w : AdmitWorld}
  {intent : Intent}

theorem length_joinPaths_le (h : ∀ p ∈ paths, p.length ≤ 4096) : (joinPaths paths).length ≤ 4097 * paths.length := by
  induction paths with
  | nil => simp [joinPaths]
  | cons p paths ih =>
    rw [forall_mem_cons] at h
    cases paths with
    | nil =>
      simp only [joinPaths, intercalate_singleton, length_singleton]
      omega
    | cons q paths =>
      have hrest := ih h.2
      simp only [joinPaths_cons_cons, length_append, length_cons] at hrest ⊢
      omega

/-- Valid paths have neither the separator nor no text at all, so a joined list can be taken apart. -/
theorem joinPaths_inj {paths' : List GoString} (h : ∀ p ∈ paths, validRepositoryPath p = true)
    (h' : ∀ p ∈ paths', validRepositoryPath p = true) (heq : joinPaths paths = joinPaths paths') : paths = paths' := by
  have split : ∀ {ps : List GoString}, (∀ p ∈ ps, validRepositoryPath p = true) → ps ≠ [] →
      (joinPaths ps).splitOn 0x1F = ps ∧ joinPaths ps ≠ [] := by
    intro ps hps hne
    have hsplit : (joinPaths ps).splitOn 0x1F = ps :=
      splitOn_intercalate 0x1F (fun p hp => notMem_of_validRepositoryPath (hps p hp)) hne
    refine ⟨hsplit, fun hnil => ?_⟩
    rw [hnil] at hsplit
    exact ne_nil_of_validRepositoryPath (hps [] (by simp [← hsplit])) rfl
  by_cases hp : paths = [] <;> by_cases hp' : paths' = []
  · rw [hp, hp']
  · rw [hp] at heq
    exact absurd heq.symm (split h' hp').2
  · rw [hp'] at heq
    exact absurd heq (split h hp).2
  · rw [← (split h hp).1, heq, (split h' hp').1]

theorem length_digestBytes (cfg : Config) (s : GoString) : (cfg.digestBytes s).length = 64 := by
  have h := cfg.isHexDigest_digestBytes s
  simp only [isHexDigest, Bool.and_eq_true, decide_eq_true_eq] at h
  exact h.1

namespace LeafSpec

variable {cfg : Config} {scope scope' : List GoString} {leaf leaf' : LeafSpec}

theorem ok_iff : LeafSpec.ok cfg scope leaf = true ↔
    nodeIDOk leaf.nodeID = true ∧ (leaf.holderPrincipal = [] ∨ printableID leaf.holderPrincipal = true) ∧
      leaf.goal ≠ [] ∧ leaf.ownedPaths ≠ [] ∧ leaf.ownedPaths.length ≤ 64 ∧ leaf.forbiddenPaths.length ≤ 64 ∧
      (∀ p ∈ leaf.ownedPaths, validRepositoryPath p = true ∧ cfg.pathWithinScope p scope = true) ∧
      ∀ p ∈ leaf.forbiddenPaths, validRepositoryPath p = true := by
  simp only [LeafSpec.ok, Bool.and_eq_true, Bool.or_eq_true, decide_eq_true_eq, all_eq_true, and_assoc]

theorem ok.leafFields_inj (h : LeafSpec.ok cfg scope leaf = true) (h' : LeafSpec.ok cfg scope' leaf' = true)
    (hgoal : cfg.digestBytes leaf.goal = cfg.digestBytes leaf'.goal → leaf.goal = leaf'.goal)
    (heq : cfg.leafFields leaf = cfg.leafFields leaf') : leaf = leaf' := by
  obtain ⟨-, -, -, -, -, -, howned, hforb⟩ := ok_iff.mp h
  obtain ⟨-, -, -, -, -, -, howned', hforb'⟩ := ok_iff.mp h'
  simp only [Config.leafFields, List.cons.injEq, and_true] at heq
  obtain ⟨hnode, hdig, hjoin, hjoin', hholder⟩ := heq
  have hpaths := joinPaths_inj (fun p hp => (howned p hp).1) (fun p hp => (howned' p hp).1) hjoin
  have hpaths' := joinPaths_inj hforb hforb' hjoin'
  cases leaf
  cases leaf'
  simp_all

theorem ok.length_lt (h : LeafSpec.ok cfg scope leaf = true) : ∀ s ∈ cfg.leafFields leaf, s.length < 256 ^ 8 := by
  obtain ⟨hnode, hholder, -, -, hcount, hcount', howned, hforb⟩ := ok_iff.mp h
  have hjoin := length_joinPaths_le fun p hp => length_of_validRepositoryPath (howned p hp).1
  have hjoin' := length_joinPaths_le fun p hp => length_of_validRepositoryPath (hforb p hp)
  have hdig := length_digestBytes cfg leaf.goal
  have hnode : leaf.nodeID.length ≤ 64 := by
    cases hid : leaf.nodeID with
    | nil => simp
    | cons b t =>
      simp only [hid, nodeIDOk, Bool.and_eq_true, decide_eq_true_eq] at hnode
      simp only [length_cons]
      omega
  have hholder : leaf.holderPrincipal.length ≤ 512 := by
    rcases hholder with hnil | hid
    · simp [hnil]
    · simp only [printableID, boundedID, Bool.and_eq_true, decide_eq_true_eq] at hid
      exact hid.1.2
  simp only [Config.leafFields, forall_mem_cons, not_mem_nil, false_implies, implies_true, and_true]
  omega

end LeafSpec

theorem reviewField_inj (h : reviewField review = reviewField review') : review = review' := by
  cases review <;> cases review' <;> simp_all [reviewField]

variable {cfg : Config}

/-- Five fields for each leaf and at most one after them. -/
theorem leaves_inj {scope' : List GoString} {leaves leaves' : List LeafSpec}
    (hok : ∀ l ∈ leaves, LeafSpec.ok cfg scope l = true) (hok' : ∀ l ∈ leaves', LeafSpec.ok cfg scope' l = true)
    (hgoals : ∀ l ∈ leaves, ∀ l' ∈ leaves', cfg.digestBytes l.goal = cfg.digestBytes l'.goal → l.goal = l'.goal)
    (h : leaves.flatMap cfg.leafFields ++ reviewField review = leaves'.flatMap cfg.leafFields ++ reviewField review') :
    leaves = leaves' ∧ review = review' := by
  have short : ∀ b, (reviewField b).length ≤ 1 := by decide
  induction leaves generalizing leaves' with
  | nil =>
    cases leaves' with
    | nil => exact ⟨rfl, reviewField_inj h⟩
    | cons l' leaves' =>
      have hlen := congrArg List.length h
      simp only [flatMap_nil, nil_append, flatMap_cons, length_append, Config.leafFields,
        length_cons] at hlen
      have := short review
      omega
  | cons l leaves ih =>
    cases leaves' with
    | nil =>
      have hlen := congrArg List.length h
      simp only [flatMap_nil, nil_append, flatMap_cons, length_append, Config.leafFields,
        length_cons] at hlen
      have := short review'
      omega
    | cons l' leaves' =>
      rw [forall_mem_cons] at hok hok'
      simp only [flatMap_cons, append_assoc] at h
      obtain ⟨hfs, hrest⟩ := append_inj h rfl
      have hleaf : l = l' := LeafSpec.ok.leafFields_inj hok.1 hok'.1
        (hgoals l (.head _) l' (.head _)) hfs
      obtain ⟨hleaves, hreview⟩ := ih hok.2 hok'.2
        (fun m hm m' hm' => hgoals m (.tail _ hm) m' (.tail _ hm')) hrest
      exact ⟨by rw [hleaf, hleaves], hreview⟩

/-- The checks of a request that come before its idempotency key is looked up. -/
structure Config.Acceptable (cfg : Config) (request : AdmitRequest) (w : AdmitWorld) (intent : Intent)
    (encoded : GoString) : Prop where
  hasIntent : request.intent = some intent
  identity : validIdentity request.authenticated = true ∧ printableID request.idempotencyKey = true
  caller : request.authenticated = request.caller
  allowed : w.allowed = true
  current : revalidateIntent request intent w = .ok ()
  leaves : cfg.validateLeafSpecs request.leaves request.approvedScopePaths = .ok ()
  hasEncoding : intent.encoding = some encoded

def AdmitRequest.idempotency (request : AdmitRequest) : IdempotencyKey :=
  request.authenticated.idempotency .admitIntent request.idempotencyKey

section Acceptable

variable {cfg : Config} {db db' : DB} {request : AdmitRequest} {w : AdmitWorld} {intent : Intent} {encoded : GoString}

theorem Config.Acceptable.admit_eq (h : cfg.Acceptable request w intent encoded) {row : IdempotencyRow}
    (hrow : db.idempotency.lookup request.idempotency = some row) :
    cfg.admitChangeIntent db request w =
      if row.requestDigest ≠ cfg.admissionRequestDigest (cfg.digestBytes encoded) request then .error .notFoundOrDenied
      else .ok (⟨row.runID, true⟩, db) := by
  unfold AdmitRequest.idempotency at hrow
  simp only [Config.admitChangeIntent, h.hasIntent, h.identity, h.caller.symm, h.allowed, h.current, h.leaves,
    h.hasEncoding, hrow,
    and_self, not_true_eq_false, ne_eq, if_false, bind, Except.bind]

/-- An accepted request is acceptable, and a row under its key holds its digest and the run it is answered with. -/
theorem admit_recorded {out : AdmitResult} (h : cfg.admitChangeIntent db request w = .ok (out, db')) :
    ∃ intent encoded, cfg.Acceptable request w intent encoded ∧
      db'.idempotency.lookup request.idempotency =
        some ⟨cfg.admissionRequestDigest (cfg.digestBytes encoded) request, out.runID⟩ := by
  unfold Config.admitChangeIntent at h
  split at h
  · cases h
  · next intent hintent =>
    simp only [guard_eq_ok_iff, andThen_eq_ok_iff, not_not] at h
    obtain ⟨hid, hcaller, hallow, hcur, hleaves, h⟩ := h
    split at h
    · cases h
    · next encoded hencoded =>
      refine ⟨intent, encoded, ⟨hintent, hid, hcaller, hallow, hcur, hleaves, hencoded⟩, ?_⟩
      split at h
      · next row hrow =>
        obtain ⟨hdig, h⟩ := guard_eq_ok_iff.mp h
        cases h
        rw [AdmitRequest.idempotency, hrow, ← not_not.mp hdig]
      · simp only [guard_eq_ok_iff, bind_eq_ok_iff, Except.ok.injEq, Prod.mk.injEq] at h
        obtain ⟨-, -, opened, -, runs, -, rfl, rfl⟩ := h
        exact Finmap.lookup_insert _

end Acceptable

/-- A row stays as it was written. -/
theorem row_run (cfg : Config) (db : DB) (later : List Command) {key : IdempotencyKey} {row : IdempotencyRow}
    (h : db.idempotency.lookup key = some row) : (later.foldl cfg.step db).idempotency.lookup key = some row := by
  obtain ⟨row', hrow, hsteps⟩ := Ledger.evolves_run (fun db c => (step_moves cfg db c).rows) db later h
  rw [hrow, (Relation.reflTransGen_iff_eq fun _ => not_false).mp hsteps]

namespace AdmitRequest

def encoding (request : AdmitRequest) : Option GoString := request.intent.bind (·.encoding)

/-- Equal in every fact but the approved scope. -/
def Agrees (a b : AdmitRequest) : Prop := a.encoding = b.encoding ∧ a.leaves = b.leaves ∧ a.review = b.review

end AdmitRequest

theorem Config.Acceptable.encoding_eq
    (h : cfg.Acceptable request w intent encoded) : request.encoding = some encoded := by
  rw [AdmitRequest.encoding, h.hasIntent, Option.bind_some, h.hasEncoding]

theorem requestFields_length_lt (h : ∀ l ∈ request.leaves, LeafSpec.ok cfg scope l = true) :
    ∀ s ∈ admitDomain :: cfg.requestFields (cfg.digestBytes encoded) request, s.length < 256 ^ 8 := by
  intro s hs
  simp only [Config.requestFields, mem_cons, mem_append, mem_flatMap] at hs
  rcases hs with rfl | (rfl | ⟨leaf, hleaf, hs⟩) | hs
  · decide +kernel
  · rw [length_digestBytes]
    decide
  · exact LeafSpec.ok.length_lt (h leaf hleaf) s hs
  · rw [reviewField] at hs
    split at hs
    · rw [mem_singleton.mp hs]
      decide +kernel
    · cases hs

/-- Where nothing collides, the digest tells two acceptable requests apart unless they agree. -/
theorem admissionRequestDigest_eq_iff (hfs : cfg.HashesFields) {a b : AdmitRequest} {w' : AdmitWorld}
    {intent' : Intent} {encoded' : GoString} (ha : cfg.Acceptable a w intent encoded)
    (hb : cfg.Acceptable b w' intent' encoded')
    (hfree : cfg.CollisionFree (cfg.hashedTexts encoded a ++ cfg.hashedTexts encoded' b)) :
    cfg.admissionRequestDigest (cfg.digestBytes encoded) a = cfg.admissionRequestDigest (cfg.digestBytes encoded') b ↔
      a.Agrees b := by
  have hok := (validateLeafSpecs_ok ha.leaves).1
  have hok' := (validateLeafSpecs_ok hb.leaves).1
  rw [AdmitRequest.Agrees, ha.encoding_eq, hb.encoding_eq, Option.some_inj]
  constructor
  · intro h
    rw [cfg.admissionRequestDigest_eq, cfg.admissionRequestDigest_eq, hfs, hfs] at h
    have htext := hfree _ (by simp [Config.hashedTexts]) _ (by simp [Config.hashedTexts]) h
    have hlist := frames_inj (sizes_bytesBE 7) (requestFields_length_lt hok) (requestFields_length_lt hok') htext
    simp only [Config.requestFields, cons_append, List.cons.injEq, true_and] at hlist
    refine ⟨hfree _ (by simp [Config.hashedTexts]) _ (by simp [Config.hashedTexts]) hlist.1, ?_⟩
    refine leaves_inj hok hok' (fun l hl l' hl' => ?_) hlist.2
    refine hfree _ ?_ _ ?_
    · simp only [Config.hashedTexts, mem_append, mem_cons, mem_map]
      exact .inl (.inr (.inr ⟨l, hl, rfl⟩))
    · simp only [Config.hashedTexts, mem_append, mem_cons, mem_map]
      exact .inr (.inr (.inr ⟨l', hl', rfl⟩))
  · rintro ⟨rfl, hleaves, hreview⟩
    simp only [Config.admissionRequestDigest, hleaves, hreview]

/-- After an accepted request and any later commands, an acceptable request of the same principal under the same key is
accepted only if it equals the first in every fact, and is then answered with the run of the first, exactly when it
does not differ in the approved scope alone. -/
theorem replay_exact_iff {cfg : Config} (hfields : cfg.HashesFields) {db db₁ : DB} {first second : AdmitRequest}
    {w w' : AdmitWorld} {out : AdmitResult} {intent : Intent} {encoded encoded' : GoString}
    (hfirst : cfg.admitChangeIntent db first w = .ok (out, db₁)) (hencoded : first.encoding = some encoded)
    (later : List Command) (hsecond : cfg.Acceptable second w' intent encoded')
    (hkey : second.idempotency = first.idempotency)
    (hfree : cfg.CollisionFree (cfg.hashedTexts encoded first ++ cfg.hashedTexts encoded' second)) :
    let db₂ := later.foldl cfg.step db₁
    let same := first.Agrees second ∧ first.approvedScopePaths = second.approvedScopePaths
    (((∃ answer, cfg.admitChangeIntent db₂ second w' = .ok answer) → same) ∧
        (same → cfg.admitChangeIntent db₂ second w' = .ok (⟨out.runID, true⟩, db₂))) ↔
      (first.Agrees second → first.approvedScopePaths = second.approvedScopePaths) := by
  intro db₂ same
  obtain ⟨intent₁, encoded₁, hacc, hrow⟩ := admit_recorded hfirst
  obtain rfl : encoded₁ = encoded := Option.some.inj (hacc.encoding_eq.symm.trans hencoded)
  have hrow₂ : db₂.idempotency.lookup second.idempotency = _ := row_run cfg db₁ later (hkey ▸ hrow)
  have hagrees := admissionRequestDigest_eq_iff hfields hacc hsecond hfree
  rw [hsecond.admit_eq hrow₂]
  by_cases h : first.Agrees second
  · simp [hagrees.mpr h, same, h]
  · simp [mt hagrees.mp h, same, h]

def hexDigit (n : Nat) : UInt8 := if n < 10 then 0x30 + n.toUInt8 else 0x57 + n.toUInt8

def checksum (s : GoString) : GoString :=
  let sum := (s.map UInt8.toNat).sum % 256
  (List.replicate 32 [hexDigit (sum / 16), hexDigit (sum % 16)]).flatten

theorem isHexDigest_checksum (s : GoString) : isHexDigest (checksum s) = true := by
  have h : ∀ sum < 256, isHexDigest (List.replicate 32 [hexDigit (sum / 16), hexDigit (sum % 16)]).flatten = true := by
    decide +kernel
  exact h _ (Nat.mod_lt _ (by decide))

def checksumConfig : Config where
  identity := fun domain fields => checksum (identityText domain fields)
  digestBytes := checksum
  isHexDigest_digestBytes := isHexDigest_checksum
  toLower := mapRunes asciiLower
  leaseTTLMillis := 1000

theorem checksumConfig_admits :
    ∃ answer, checksumConfig.admitChangeIntent DB.empty exampleRequest exampleWorld = .ok answer := by
  have h : succeeds (checksumConfig.admitChangeIntent DB.empty exampleRequest exampleWorld) (fun _ => true) = true := by
    decide +kernel
  obtain ⟨answer, hans, -⟩ := succeeds_iff.mp h
  exact ⟨answer, hans⟩

/-- The request of before with another directory in its scope is answered with the run admitted without it. -/
theorem replay_ignores_scope :
    let wider := { exampleRequest with approvedScopePaths := [lit "src", lit "secrets"] }
    ∃ out db, checksumConfig.admitChangeIntent DB.empty exampleRequest exampleWorld = .ok (out, db) ∧
      checksumConfig.admitChangeIntent db wider exampleWorld = .ok (⟨out.runID, true⟩, db) ∧
      wider.approvedScopePaths ≠ exampleRequest.approvedScopePaths := by
  intro wider
  obtain ⟨⟨out, db⟩, hfirst⟩ := checksumConfig_admits
  obtain ⟨intent, encoded, hacc, hrow⟩ := admit_recorded hfirst
  have hwider : checksumConfig.Acceptable wider exampleWorld intent encoded :=
    { hacc with leaves := by decide +kernel }
  refine ⟨out, db, hfirst, ?_, by decide +kernel⟩
  rw [hwider.admit_eq hrow]
  exact if_neg (not_not.mpr rfl)

theorem replay_exact_again :
    ∃ out db, checksumConfig.admitChangeIntent DB.empty exampleRequest exampleWorld = .ok (out, db) ∧
      let db' := checksumConfig.step db (.transitionRun exampleIdentity out.runID (some .ready))
      checksumConfig.admitChangeIntent db' exampleRequest exampleWorld = .ok (⟨out.runID, true⟩, db') := by
  obtain ⟨⟨out, db⟩, hfirst⟩ := checksumConfig_admits
  obtain ⟨intent, encoded, hacc, -⟩ := admit_recorded hfirst
  obtain rfl : lit "i" = encoded := Option.some.inj hacc.encoding_eq
  have hfree : checksumConfig.CollisionFree
      (checksumConfig.hashedTexts (lit "i") exampleRequest ++ checksumConfig.hashedTexts (lit "i") exampleRequest) := by
    unfold Config.CollisionFree
    decide +kernel
  have h := replay_exact_iff (fun _ _ => rfl)
    hfirst rfl [.transitionRun exampleIdentity out.runID (some .ready)] hacc rfl hfree
  exact ⟨out, db, hfirst, (h.mpr fun _ => rfl).2 ⟨⟨rfl, rfl, rfl⟩, rfl⟩⟩

end CodeMemory.Factory
