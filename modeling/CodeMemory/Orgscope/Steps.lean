import CodeMemory.Orgscope.Calls

/-! What the sections of the calls do. A section that changes the policy raises the
epoch. Only `Put` and `Restore` bring items in; every other section leaves items as they
are or removes them. Only the erasures of scopes and owners move fences. -/

namespace CodeMemory.Orgscope

open Lib Lib.GoString Lib.GoMap

/-- Every grant is filed under its subject and its scope. -/
def Authority.Keyed (a : Authority) : Prop :=
  ∀ subject byScope key g, a.grants.lookup subject = some byScope → byScope.lookup key = some g →
    g.subject = subject ∧ (splitSubject subject).isSome = true

theorem keyed_setGrant {a : Authority} (ha : a.Keyed) {g : GrantRecord} (hg : (splitSubject g.subject).isSome = true) :
    (a.setGrant g).Keyed := by
  intro subject byScope key g' hsubj hkey
  rw [Authority.setGrant, lookup_insert_eq] at hsubj
  split_ifs at hsubj with heq
  · cases hsubj
    rw [lookup_insert_eq] at hkey
    split_ifs at hkey with hk
    · cases hkey
      exact ⟨heq.symm, heq ▸ hg⟩
    · cases hold : a.grants.lookup g.subject with
      | none => simp [hold] at hkey
      | some old =>
        rw [hold, Option.getD_some] at hkey
        rw [heq]
        exact ha g.subject old key g' hold hkey
  · exact ha subject byScope key g' hsubj hkey

theorem keyed_removeGrant {a a' : Authority} (ha : a.Keyed) {subject : GoString} {scope : Scope}
    (h : a.removeGrant subject scope = some a') : a'.Keyed := by
  unfold Authority.removeGrant at h
  split at h
  · cases h
  · next old hold =>
    split at h
    · cases h
    · cases h
      intro subject' byScope key g hsubj hkey
      rw [lookup_insert_eq] at hsubj
      split_ifs at hsubj with heq
      · cases hsubj
        rw [lookup_erase_eq] at hkey
        split_ifs at hkey
        rw [heq]
        exact ha subject old key g hold hkey
      · exact ha subject' byScope key g hsubj hkey

/-- No identity has had more incarnations than the policy has had changes. -/
def Directory.Counted (d : Directory) : Prop :=
  ∀ id, (d.versions.lookup id).getD 0 ≤ d.epoch ∧ (d.groupVer.lookup id).getD 0 ≤ d.epoch

/-- What a change does to the counters. -/
structure Directory.Raised (d d' : Directory) : Prop where
  epoch : d'.epoch = d.epoch + 1
  counted : d.Counted → d'.Counted

theorem bump_le (m : GoMap GoString ℕ) (changed id : GoString) :
    ((bump m changed).lookup id).getD 0 ≤ (m.lookup id).getD 0 + 1 := by
  rw [bump, lookup_insert_eq]
  split_ifs with heq
  · rw [heq, Option.getD_some]
  · exact Nat.le_succ _

theorem raised_of_bumped {d d' : Directory} (hepoch : d'.epoch = d.epoch)
    (hversions : d'.versions = d.versions ∨ ∃ id, d'.versions = bump d.versions id)
    (hgroupVer : d'.groupVer = d.groupVer ∨ ∃ id, d'.groupVer = bump d.groupVer id) : d.Raised d'.emit := by
  have hle : ∀ {m m' : GoMap GoString ℕ} (id : GoString), m' = m ∨ (∃ changed, m' = bump m changed) →
      (m'.lookup id).getD 0 ≤ (m.lookup id).getD 0 + 1 := by
    rintro m _ id (rfl | ⟨changed, rfl⟩)
    · exact Nat.le_succ _
    · exact bump_le m changed id
  refine ⟨congrArg (· + 1) hepoch, fun h id => ⟨?_, ?_⟩⟩ <;> dsimp only [Directory.emit] <;> rw [hepoch]
  · exact (hle id hversions).trans (Nat.succ_le_succ (h id).1)
  · exact (hle id hgroupVer).trans (Nat.succ_le_succ (h id).2)

theorem Directory.raised_emit (d : Directory) : d.Raised d.emit := raised_of_bumped rfl (.inl rfl) (.inl rfl)

/-- A change of the directory that succeeds raises the epoch. -/
def Raises (change : Directory → Except Err Directory) : Prop := ∀ d d', change d = .ok d' → d.Raised d'

theorem raises_provision (userID : GoString) : Raises (·.provision userID) := by
  intro d d' h
  simp only [Directory.provision] at h
  split at h
  · cases h
  · cases h
    refine raised_of_bumped rfl ?_ (.inl rfl)
    split_ifs
    · exact .inl rfl
    · exact .inr ⟨userID, rfl⟩

theorem raises_deprovision (userID : GoString) : Raises (·.deprovision userID) := by
  intro d d' h
  simp only [Directory.deprovision] at h
  split at h
  · cases h
  · cases h
    exact raised_of_bumped rfl (.inr ⟨userID, rfl⟩) (.inl rfl)

theorem raises_ensureGroup (groupID : GoString) : Raises (·.ensureGroup groupID) := by
  intro d d' h
  simp only [Directory.ensureGroup] at h
  split at h
  · cases h
  · split at h
    · cases h
      exact d.raised_emit
    · cases h
      exact raised_of_bumped rfl (.inl rfl) (.inr ⟨groupID, rfl⟩)

theorem raises_deleteGroup (groupID : GoString) : Raises (·.deleteGroup groupID) := by
  intro d d' h
  simp only [Directory.deleteGroup] at h
  split at h
  · cases h
  · cases h
    exact raised_of_bumped rfl (.inl rfl) (.inr ⟨groupID, rfl⟩)

theorem raises_addMember (groupID userID : GoString) : Raises (·.addMember groupID userID) := by
  intro d d' h
  simp only [Directory.addMember] at h
  split at h
  · cases h
  · split at h
    · cases h
    · cases h
      exact raised_of_bumped rfl (.inl rfl) (.inl rfl)

theorem raises_removeMember (groupID userID : GoString) : Raises (·.removeMember groupID userID) := by
  intro d d' h
  simp only [Directory.removeMember] at h
  split at h
  · cases h
  · split at h
    · cases h
    · cases h
      exact raised_of_bumped rfl (.inl rfl) (.inl rfl)

/-- What the sections of a call can do besides what those of any call can. -/
inductive Effect where
  | plain
  | put (item : Item)
  | restore (b : Backup)
  | fence

/-- What a section of a call that does not read can do. -/
inductive Step (cfg : Config) (w : World) : Effect → World → Prop
  | same (e : Effect) : Step cfg w e w
  | tick (e : Effect) (now : Int) : Step cfg w e { w with now := now }
  | directory (e : Effect) (d : Directory) (raised : w.directory.Raised d) : Step cfg w e { w with directory := d }
  | authority (e : Effect) (a : Authority) (d : Directory) (raised : w.directory.Raised d)
    (keyed : w.authority.Keyed → a.Keyed) : Step cfg w e { w with authority := a, directory := d }
  | erase (e : Effect) (reason : GoString) (now : Int) (ids : List GoString) :
    Step cfg w e { w with store := w.store.erase reason now ids }
  | rebuild (e : Effect) (order : List GoString) : Step cfg w e { w with store := w.store.rebuild cfg order }
  | put (item : Item) (s : Store) (put : w.store.put cfg item = some s) : Step cfg w (.put item) { w with store := s }
  | restore (order : List GoString) (b : Backup) :
    Step cfg w (.restore b) { w with store := w.store.restore cfg order b }
  | fence (scopes : Finset Scope) (owners : Finset GoString) (lifting : GoMap Fence ℕ) :
    Step cfg w .fence
      { w with store := { w.store with erasingScopes := scopes, erasingOwners := owners }, lifting := lifting }

def Request.effect : Request → Effect
  | .put item => .put item
  | .restore b => .restore b
  | .eraseScope .. | .eraseOwner .. => .fence
  | _ => .plain

def Request.isRead : Request → Bool
  | .query .. | .searchClaims .. | .history _ | .graph _ | .replay _ => true
  | _ => false

section Changes

variable {cfg : Config} {c : Routine.Contract World} {n : ℕ} {h : List World} {e : Effect}

/-- The contract bears every step with the effect. -/
def Allowed (cfg : Config) (c : Routine.Contract World) (e : Effect) : Prop :=
  ∀ w w', Step cfg w e w' → c.inv w → c.ok w → c.inv w' ∧ c.guar w w'

abbrev Completes (c : Routine.Contract World) {α : Type} (r : Call α) (n : ℕ) (h : List World) : Prop :=
  r.Ensures c (fun _ _ _ => True) n h

theorem completes_atomic (hallow : Allowed cfg c e) {α : Type} {f : List GoString → World → α × World}
    (hf : ∀ order w, Step cfg w e (f order w).2) : Completes c (.atomic f) n h := by
  refine .atomic fun w h' _ hinv hok order => ?_
  obtain ⟨hkeeps, hguar⟩ := hallow w _ (hf order w) hinv hok
  exact ⟨hkeeps, hguar, trivial⟩

theorem completes_reads (hallow : Allowed cfg c e) {α : Type} {f : World → α} :
    Completes c (.reads f) n h :=
  completes_atomic hallow fun _ _ => .same e

theorem completes_bind {α β : Type} {r : Call α} {k : α → Call β} (hr : Completes c r n h)
    (hk : ∀ a n h, Completes c (k a) n h) : Completes c (r >>= k) n h :=
  .bind (hr.mono fun n a h _ => hk a n h)

theorem changeDirectory_completes (hallow : Allowed cfg c e) {change : Directory → Except Err Directory}
    (hraises : Raises change) : Completes c (changeDirectory change) n h := by
  refine completes_atomic hallow fun _ w => ?_
  split
  · exact .same e
  · next d hd => exact .directory e d (hraises w.directory d hd)

theorem changeAuthority_completes (hallow : Allowed cfg c e) {change : Authority → Except Err Authority}
    (hkeyed : ∀ a a', change a = .ok a' → a.Keyed → a'.Keyed) : Completes c (changeAuthority change) n h := by
  refine completes_atomic hallow fun _ w => ?_
  split
  · exact .same e
  · next a ha => exact .authority e a _ w.directory.raised_emit (hkeyed w.authority a ha)

theorem grant_completes (hallow : Allowed cfg c e) (g : Grant) : Completes c (grant g) n h := by
  -- A record of this grant has its subject, which is one that can be split.
  have hset : ∀ kind id, splitSubject g.subject = some (kind, id) → ∀ i j n h,
      Completes c (changeAuthority fun a => .ok (a.setGrant ⟨g, i, j⟩)) n h := by
    intro kind id hsplit i j n h
    refine changeAuthority_completes hallow fun a a' ha hkeyed => ?_
    cases ha
    exact keyed_setGrant hkeyed (Option.isSome_iff_exists.mpr ⟨_, hsplit⟩)
  unfold grant
  split
  · trivial
  · split
    · trivial
    · next kind id hsplit =>
      refine completes_bind (completes_reads hallow) fun subject n h => ?_
      cases subject with
      | none => trivial
      | some subjectIncarnation =>
        dsimp only
        split
        · exact hset kind id hsplit _ _ n h
        · refine completes_bind (completes_reads hallow) fun delegator n h => ?_
          cases delegator with
          | none => trivial
          | some delegatorIncarnation => exact hset kind id hsplit _ _ n h

theorem erase_completes (hallow : Allowed cfg c e) (snapshot : Option World) (reason : GoString)
    (ids : List GoString) : Completes c (erase snapshot reason ids) n h := by
  unfold erase
  split
  · refine completes_bind (completes_reads hallow) fun now n h => ?_
    refine completes_bind (completes_atomic hallow fun _ w => .erase e reason now ids) fun _ n h => ?_
    refine completes_bind (completes_atomic hallow fun _ w => .directory e _ w.directory.raised_emit) fun _ n h => ?_
    exact completes_bind (completes_reads hallow) fun complete n h => trivial
  · trivial

theorem fence_step {w : World} (callID : ℕ) (k : Fence) : Step cfg w .fence (w.fence callID k) := by
  cases k with
  | scope scope => exact .fence _ w.store.erasingOwners _
  | owner userID => exact .fence w.store.erasingScopes _ _

theorem unfence_step {w : World} (k : Fence) : Step cfg w .fence (w.unfence k) := by
  cases k with
  | scope scope => exact .fence _ w.store.erasingOwners _
  | owner userID => exact .fence w.store.erasingScopes _ _

theorem eraseFenced_completes (hallow : Allowed cfg c .fence) (callID : ℕ) (k : Fence) (reason : GoString) :
    Completes c (eraseFenced callID k reason) n h := by
  refine completes_bind (completes_atomic hallow fun _ w => fence_step callID k) fun snapshot n h => ?_
  split
  · split
    · trivial
    · exact completes_bind (completes_atomic hallow fun _ w => unfence_step k) fun _ n h => trivial
  · exact erase_completes hallow (some snapshot) reason _

/-- A call that does not read runs in steps. -/
theorem change_completes {q : Request} (hallow : Allowed cfg c q.effect) (callID : ℕ) (hq : q.isRead = false) :
    Completes c (routine cfg callID q) n h := by
  cases q with
  | tick now => exact completes_atomic hallow fun _ w => .tick _ now
  | provision userID => exact changeDirectory_completes hallow (raises_provision userID)
  | deprovision userID => exact changeDirectory_completes hallow (raises_deprovision userID)
  | ensureGroup groupID => exact changeDirectory_completes hallow (raises_ensureGroup groupID)
  | deleteGroup groupID => exact changeDirectory_completes hallow (raises_deleteGroup groupID)
  | addMember groupID userID => exact changeDirectory_completes hallow (raises_addMember groupID userID)
  | removeMember groupID userID => exact changeDirectory_completes hallow (raises_removeMember groupID userID)
  | grant g => exact grant_completes hallow g
  | revoke subject scope =>
    simp only [routine, revoke]
    refine changeAuthority_completes hallow fun a a' ha hkeyed => ?_
    split at ha
    · cases ha
    · next a'' hremove =>
      cases ha
      exact keyed_removeGrant hkeyed hremove
  | deny userID scope =>
    simp only [routine, deny]
    split
    · refine changeAuthority_completes hallow fun a a' ha hkeyed => ?_
      cases ha
      exact hkeyed
    · trivial
  | put item =>
    simp only [routine, put]
    split
    · refine completes_atomic hallow fun _ w => ?_
      split
      · exact .same _
      · next s hs => exact .put item s hs
    · trivial
  | erase reason ids => exact erase_completes hallow none reason ids
  | rebuildProjections => exact completes_atomic hallow fun order w => .rebuild _ order
  | restore b =>
    simp only [routine, restore]
    split
    · exact completes_atomic hallow fun order w => .restore order b
    · trivial
  | eraseScope reason scope =>
    simp only [routine, eraseScope]
    split
    · exact eraseFenced_completes hallow callID _ reason
    · trivial
  | eraseOwner reason userID =>
    simp only [routine, eraseOwner]
    split
    · exact eraseFenced_completes hallow callID _ reason
    · trivial
  | query | searchClaims | history | graph | replay => cases hq

end Changes

end CodeMemory.Orgscope
