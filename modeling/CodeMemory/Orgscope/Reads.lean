import CodeMemory.Orgscope.Steps

/-! What an authorization pass knows. The reads of a pass fall at different moments;
since every change of the policy raises the epoch, a pass that finds the epoch it began
with has read one policy throughout. -/

namespace CodeMemory.Orgscope

open Lib Lib.GoString List

/-- The epoch does not fall, and while it stays the policy does. -/
def World.Le (w w' : World) : Prop :=
  w.epoch ≤ w'.epoch ∧ (w.epoch = w'.epoch → w.directory = w'.directory ∧ w.authority = w'.authority)

theorem World.Le.refl (w : World) : w.Le w := ⟨Nat.le_refl _, fun _ => ⟨rfl, rfl⟩⟩

theorem World.Le.trans {w₁ w₂ w₃ : World} (h : w₁.Le w₂) (h' : w₂.Le w₃) : w₁.Le w₃ := by
  refine ⟨h.1.trans h'.1, fun heq => ?_⟩
  have h₁₂ : w₁.epoch = w₂.epoch := Nat.le_antisymm h.1 (heq ▸ h'.1)
  have h₂₃ : w₂.epoch = w₃.epoch := h₁₂ ▸ heq
  exact ⟨(h.2 h₁₂).1.trans (h'.2 h₂₃).1, (h.2 h₁₂).2.trans (h'.2 h₂₃).2⟩

/-- The moments, the newest first, as time orders them. -/
def Settled (moments : List World) : Prop := moments.Pairwise fun later earlier => earlier.Le later

theorem Settled.append {later earlier : List World} (h : Settled (later ++ earlier)) :
    Settled later ∧ Settled earlier ∧ ∀ m ∈ later, ∀ m' ∈ earlier, m'.Le m :=
  pairwise_append.mp h

/-- One policy at all of the moments. -/
def Fixed (d : Directory) (a : Authority) (moments : List World) : Prop :=
  ∀ m ∈ moments, m.directory = d ∧ m.authority = a

theorem Fixed.append {d : Directory} {a : Authority} {later earlier : List World} (h : Fixed d a (later ++ earlier)) :
    Fixed d a later ∧ Fixed d a earlier :=
  ⟨fun m hm => h m (mem_append_left _ hm), fun m hm => h m (mem_append_right _ hm)⟩

/-- Between two moments of one epoch the policy is that of the first. -/
theorem fixed_between {first last : World} (moments : List World) (hepoch : last.epoch = first.epoch)
    (hfirst : ∀ m ∈ moments, first.Le m) (hlast : ∀ m ∈ moments, m.Le last) :
    ∀ m ∈ moments, m.epoch = first.epoch ∧ m.directory = first.directory ∧ m.authority = first.authority := by
  intro m hm
  have heq : first.epoch = m.epoch := Nat.le_antisymm (hfirst m hm).1 (hepoch ▸ (hlast m hm).1)
  obtain ⟨hdir, hauth⟩ := (hfirst m hm).2 heq
  exact ⟨heq.symm, hdir.symm, hauth.symm⟩

theorem splitSubject_subject {kind : SubjectKind} {id : GoString}
    (h : (splitSubject (kind.subject id)).isSome = true) : splitSubject (kind.subject id) = some (kind, id) := by
  have hgroup : hasPrefix (SubjectKind.user.subject id) (lit "group:") = false := rfl
  have huser : hasPrefix (SubjectKind.group.subject id) (lit "user:") = false := rfl
  unfold splitSubject at h ⊢
  cases kind <;> simp only [hgroup, huser, Bool.false_and, Bool.false_eq_true, if_false] at h ⊢ <;>
    split_ifs at h ⊢
  · rfl
  · cases h
  · rfl
  · cases h

theorem grantAt_keyed {a : Authority} (ha : a.Keyed) {subject : GoString} {scope : Scope} {g : GrantRecord}
    (h : a.grantAt subject scope = some g) : g.subject = subject ∧ (splitSubject subject).isSome = true := by
  obtain ⟨byScope, hsubj, hkey⟩ := Option.bind_eq_some_iff.mp h
  exact ha subject byScope scope.key g hsubj hkey

section Resolution

variable {cfg : Config}

/-- What `liveGrant` checks of a grant, if the directory stays. -/
def GrantRecord.Checked (d : Directory) (principalIncarnation : ℕ) (now : Int) (g : GrantRecord) : Prop :=
  g.Unexpired now ∧ g.Backed d ∧ (∀ id, splitSubject g.subject = some (.user, id) →
    g.subjectIncarnation = principalIncarnation) ∧
    ∀ id, splitSubject g.subject = some (.group, id) → d.groupIncarnation id = some g.subjectIncarnation

theorem backed_observes (g : GrantRecord) :
    (liveGrant.backed g).Observes fun live new => live = true → ∀ d a, Fixed d a new → g.Backed d := by
  unfold liveGrant.backed
  split
  · next hnone => exact .pure fun _ d a _ hsome => absurd hnone hsome
  · refine .bind (P := fun incarnation new => ∀ d a, Fixed d a new → incarnation = d.incarnation g.delegatedBy) ?_
      fun incarnation => .pure ?_
    · refine .reads fun w _ d a hfixed => ?_
      rw [(hfixed w (.head _)).1]
    · intro old hold hlive d a hfixed _
      rw [← hold d a hfixed]
      exact of_decide_eq_true hlive

theorem liveGrant_observes (g : GrantRecord) (principalIncarnation : ℕ) (now : Int) :
    (liveGrant g principalIncarnation now).Observes fun live new =>
      live = true → ∀ d a, Fixed d a new → g.Checked d principalIncarnation now := by
  unfold liveGrant
  split
  · exact .pure fun h => by cases h
  split
  · exact .pure fun h => by cases h
  next hexpires =>
  have hunexpired : g.Unexpired now := by
    intro t ht
    rw [ht] at hexpires
    simpa using hexpires
  split
  · next id hsplit =>
    split
    · exact .pure fun h => by cases h
    · next hinc =>
      refine (backed_observes g).mono fun live new hlive h d a hfixed => ⟨hunexpired, hlive h d a hfixed, ?_, ?_⟩
      · exact fun _ _ => not_not.mp hinc
      · intro id' hsplit'
        rw [hsplit] at hsplit'
        cases hsplit'
  · next id hsplit =>
    refine .bind (P := fun incarnation new => ∀ d a, Fixed d a new → incarnation = d.groupIncarnation id)
      (.reads fun w _ d a hfixed => by rw [(hfixed w (.head _)).1]) fun incarnation => ?_
    split
    · exact .pure fun _ _ h => by cases h
    · next hinc =>
      refine (backed_observes g).mono fun live new hlive old hold h d a hfixed => ?_
      refine ⟨hunexpired, hlive h d a hfixed.append.1, ?_, ?_⟩
      · intro id' hsplit'
        rw [hsplit] at hsplit'
        cases hsplit'
      · intro id' hsplit'
        rw [hsplit] at hsplit'
        cases hsplit'
        rw [← hold d a hfixed.append.2]
        exact not_not.mp hinc
  · next hsplit =>
    refine (backed_observes g).mono fun live new hlive h d a hfixed => ⟨hunexpired, hlive h d a hfixed, ?_, ?_⟩
    · intro id' hsplit'
      rw [hsplit] at hsplit'
      cases hsplit'
    · intro id' hsplit'
      rw [hsplit] at hsplit'
      cases hsplit'

theorem anyLive_observes (principalIncarnation : ℕ) (now : Int) (gs : List GrantRecord) :
    (anyLive principalIncarnation now gs).Observes fun live new =>
      live = true → ∀ d a, Fixed d a new → ∃ g ∈ gs, g.Checked d principalIncarnation now := by
  induction gs with
  | nil => exact .pure fun h => by cases h
  | cons g gs ih =>
    refine .bind (liveGrant_observes g principalIncarnation now) fun live => ?_
    split
    · next hlive =>
      exact .pure fun old hold _ d a hfixed => ⟨g, (.head _), hold hlive d a hfixed⟩
    · refine ih.mono fun live new hlive old _ h d a hfixed => ?_
      obtain ⟨g', hg', hchk⟩ := hlive h d a hfixed.append.1
      exact ⟨g', mem_cons_of_mem g hg', hchk⟩

/-- A grant among the candidates that passes the check opens the scope to the principal. -/
theorem for_of_candidate {d : Directory} {a : Authority} (ha : a.Keyed) {userID : GoString} {order : List GoString}
    {scope : Scope} {g : GrantRecord} (hg : g ∈ a.candidates userID (d.memberGroups order userID) scope)
    {incarnation : ℕ} {now : Int} (hchk : g.Checked d incarnation now) : g.For d a userID incarnation scope := by
  rw [Authority.candidates, mem_filterMap] at hg
  obtain ⟨subject, hsubj, hgrant⟩ := hg
  obtain ⟨hkey, hsome⟩ := grantAt_keyed ha hgrant
  rcases mem_cons.mp hsubj with rfl | hsubj
  · exact .inl ⟨hgrant, hchk.2.2.1 userID (by rw [hkey, splitSubject_subject hsome])⟩
  · obtain ⟨group, hgroup, rfl⟩ := mem_map.mp hsubj
    unfold Directory.memberGroups at hgroup
    split at hgroup
    · cases hgroup
    · obtain ⟨hmem, huser⟩ := mem_filter.mp hgroup
      obtain ⟨members, hmembers⟩ := GoMap.mem_keys_iff.mp (GoMap.mem_iterated.mp hmem)
      rw [hmembers, Option.getD_some, decide_eq_true_eq] at huser
      exact .inr ⟨group, members, hmembers, huser, hgrant,
        hchk.2.2.2 group (by rw [hkey, splitSubject_subject hsome])⟩

variable (p : Principal)

theorem resolveOnce_observes (scope : Scope) :
    (resolveOnce cfg p scope).Observes fun allowed new => allowed = true → ∀ d a, Fixed d a new → a.Keyed →
      ∃ m ∈ new, ∃ incarnation, Allows d a m.now p.userID incarnation scope := by
  unfold resolveOnce
  split
  · exact .pure fun h => by cases h
  refine .bind (P := fun _ _ => True) (.reads fun _ _ => trivial) fun active => ?_
  split
  · exact .pure fun _ _ h => by cases h
  refine .bind (P := fun now new => ∃ m ∈ new, m.now = now)
    (.reads fun w _ => ⟨w, (.head _), rfl⟩) fun now => ?_
  refine .bind (P := fun groups new => ∀ d a, Fixed d a new → ∃ order, groups = d.memberGroups order p.userID)
    (.asks fun order w _ d a hfixed => ⟨order, by rw [(hfixed w (.head _)).1]⟩) fun groups => ?_
  refine .bind (P := fun incarnation new => ∀ d a, Fixed d a new → incarnation = d.incarnation p.userID)
    (.reads fun w _ d a hfixed => by rw [(hfixed w (.head _)).1]) fun incarnation => ?_
  cases incarnation with
  | none => exact .pure fun _ _ _ _ _ _ _ _ h => by cases h
  | some principalIncarnation =>
    refine .bind (P := fun found new => ∀ d a, Fixed d a new → found =
        if denyKey p.userID scope ∈ a.denies then none
        else if scope.kind = .individual ∧ scope.id = p.userID then some none
        else some (some (a.candidates p.userID groups scope)))
      (.reads fun w _ d a hfixed => by rw [(hfixed w (.head _)).2]) fun found => ?_
    -- The moment of the clock reading is the one at which the policy allows.
    have hpass : ∀ {new o₅ o₄ o₃ o₂ o₁ : List World} {d : Directory} {a : Authority},
        Fixed d a (new ++ o₅ ++ o₄ ++ o₃ ++ o₂ ++ o₁) →
        Fixed d a new ∧ Fixed d a o₅ ∧ Fixed d a o₄ ∧ Fixed d a o₃ :=
      fun h => ⟨h.append.1.append.1.append.1.append.1.append.1, h.append.1.append.1.append.1.append.1.append.2,
        h.append.1.append.1.append.1.append.2, h.append.1.append.1.append.2⟩
    cases found with
    | none => exact .pure fun _ _ _ _ _ _ _ _ _ _ h => by cases h
    | some found =>
      cases found with
      | none =>
        refine .pure fun o₅ h₅ o₄ h₄ o₃ _ o₂ hclock o₁ _ _ d a hfixed hkeyed => ?_
        obtain ⟨-, hfound, hinc, -⟩ := hpass hfixed
        obtain ⟨m, hm, rfl⟩ := hclock
        have hopen := h₅ d a hfound
        split_ifs at hopen with hdeny hown
        · exact ⟨m, mem_append_left _ (mem_append_right _ hm), principalIncarnation,
            (h₄ d a hinc).symm, hdeny, .inl hown⟩
        · cases hopen
      | some candidates =>
        refine (anyLive_observes principalIncarnation now candidates).mono
          fun allowed new hlive o₅ h₅ o₄ h₄ o₃ h₃ o₂ hclock o₁ _ hallow d a hfixed hkeyed => ?_
        obtain ⟨hnew, hfound, hinc, hgroups⟩ := hpass hfixed
        obtain ⟨m, hm, rfl⟩ := hclock
        have hopen := h₅ d a hfound
        split_ifs at hopen with hdeny hown
        · cases hopen
        · obtain ⟨g, hg, hchk⟩ := hlive hallow d a hnew
          obtain ⟨order, rfl⟩ := h₃ d a hgroups
          obtain rfl := Option.some.inj (Option.some.inj hopen)
          exact ⟨m, mem_append_left _ (mem_append_right _ hm), principalIncarnation,
            (h₄ d a hinc).symm, hdeny, .inr ⟨g, for_of_candidate hkeyed hg hchk, hchk.1, hchk.2.1⟩⟩

/-- The epoch is that of a moment of the reading. -/
theorem epochNow_observes : epochNow.Observes fun epoch new => ∃ m ∈ new, m.epoch = epoch :=
  .reads fun w _ => ⟨w, (.head _), rfl⟩

theorem resolve_observes (scope : Scope) (passes : ℕ) :
    (resolve cfg p scope passes).Observes fun allowed new => allowed = true → Settled new →
      (∀ m ∈ new, m.authority.Keyed) →
      ∃ m ∈ new, ∃ incarnation, Allows m.directory m.authority m.now p.userID incarnation scope := by
  induction passes with
  | zero => exact .pure fun h => by cases h
  | succ passes ih =>
    refine .bind epochNow_observes fun epoch => .bind (resolveOnce_observes p scope) fun allowed =>
      .bind epochNow_observes fun epoch' => ?_
    split
    · next hepoch =>
      refine .pure fun o₃ hlast o₂ honce o₁ hfirst hallow hset hkeyed => ?_
      obtain ⟨last, hlast, rfl⟩ := hlast
      obtain ⟨first, hfirst, rfl⟩ := hfirst
      -- The first and the last reading have one epoch, so the policy is fixed in between.
      obtain ⟨hlater, -, hle⟩ := hset.append
      have hfixed := fixed_between o₂ hepoch
        (fun m hm => hle m (mem_append_right _ hm) first hfirst)
        fun m hm => hlater.append.2.2 last (by simpa using hlast) m hm
      have hkeyed' : first.authority.Keyed := hkeyed first (mem_append_right _ hfirst)
      obtain ⟨m, hm, incarnation, hallows⟩ := honce hallow first.directory first.authority
        (fun m hm => (hfixed m hm).2) hkeyed'
      refine ⟨m, mem_append_left _ (mem_append_right _ hm), incarnation, ?_⟩
      rw [(hfixed m hm).2.1, (hfixed m hm).2.2]
      exact hallows
    · refine ih.mono fun allowed new hnew o₃ _ o₂ _ o₁ _ hallow hset hkeyed => ?_
      obtain ⟨m, hm, hallows⟩ := hnew hallow hset.append.1.append.1.append.1
        fun m hm => hkeyed m (mem_append_left _ (mem_append_left _ (mem_append_left _ hm)))
      exact ⟨m, mem_append_left _ (mem_append_left _ (mem_append_left _ hm)), hallows⟩

theorem activePrincipalKey_observes :
    (activePrincipalKey cfg p).Observes fun key new => ∀ k, key = some k → k.userID = p.userID ∧
      ∃ m ∈ new, m.directory.incarnation p.userID = some k.incarnation := by
  unfold activePrincipalKey
  split
  · exact .pure fun k h => by cases h
  · refine .reads fun w _ k hk => ?_
    obtain ⟨incarnation, hinc, rfl⟩ := Option.map_eq_some_iff.mp hk
    exact ⟨rfl, w, (.head _), hinc⟩

/-- What a pass over the candidates lets through: items that were live, and allowed if the moments are in order. -/
structure Passed (p : Principal) (candidates : List GoString) (items : List Item) (moments : List World) : Prop where
  live : ∀ item ∈ items, ∃ id ∈ candidates, ∃ m ∈ moments, m.store.live id = some item
  allowed : Settled moments → (∀ m ∈ moments, m.authority.Keyed) → ∀ item ∈ items,
    ∃ m ∈ moments, ∃ incarnation, Allows m.directory m.authority m.now p.userID incarnation item.scope

theorem Passed.later {p : Principal} {candidates : List GoString} {items : List Item} {new : List World}
    (h : Passed p candidates items new) (id : GoString) (old : List World) :
    Passed p (id :: candidates) items (new ++ old) where
  live item hitem := by
    obtain ⟨id', hid', m, hm, hlive⟩ := h.live item hitem
    exact ⟨id', mem_cons_of_mem id hid', m, mem_append_left _ hm, hlive⟩
  allowed hset hkeyed item hitem := by
    obtain ⟨m, hm, hallows⟩ := h.allowed hset.append.1 (fun m hm => hkeyed m (mem_append_left _ hm)) item hitem
    exact ⟨m, mem_append_left _ hm, hallows⟩

theorem authorizedPass_observes (candidates : List GoString) :
    (authorizedPass cfg p candidates).Observes (Passed p candidates) := by
  induction candidates with
  | nil => exact .pure ⟨fun _ h => (not_mem_nil h).elim, fun _ _ _ h => (not_mem_nil h).elim⟩
  | cons id rest ih =>
    refine .bind (P := fun _ _ => True) (.reads fun _ _ => trivial) fun snapshot => ?_
    cases snapshot with
    | none => exact ih.mono fun items new hitems old _ => hitems.later id old
    | some item =>
      refine .bind (resolve_observes p item.scope maxAuthPasses) fun allowed => ?_
      split
      · next hallow =>
        refine .bind (P := fun current new => ∃ m ∈ new, m.store.live id = current)
          (.reads fun w _ => ⟨w, (.head _), rfl⟩) fun current => ?_
        split
        · next hcur =>
          refine .bind ih fun items => .pure fun o₄ hitems o₃ hlive o₂ hresolve o₁ _ => ?_
          have hlater := hitems.later id (o₃ ++ o₂ ++ o₁)
          rw [← append_assoc, ← append_assoc] at hlater
          obtain ⟨m, hm, hlive⟩ := hlive
          refine ⟨fun item' hitem' => ?_, fun hset hkeyed item' hitem' => ?_⟩
          · rcases mem_cons.mp hitem' with rfl | hitem'
            · exact ⟨id, (.head _), m, by simp [hm], hlive.trans hcur⟩
            · exact hlater.live item' hitem'
          · rcases mem_cons.mp hitem' with rfl | hitem'
            · obtain ⟨m', hm', hallows⟩ := hresolve hallow hset.append.1.append.2.1
                fun m hm => hkeyed m (by simp [hm])
              exact ⟨m', by simp [hm'], hallows⟩
            · exact hlater.allowed hset hkeyed item' hitem'
        · refine ih.mono fun items new hitems o₃ _ o₂ _ o₁ _ => ?_
          have hlater := hitems.later id (o₃ ++ o₂ ++ o₁)
          rwa [← append_assoc, ← append_assoc] at hlater
      · refine ih.mono fun items new hitems o₂ _ o₁ _ => ?_
        have hlater := hitems.later id (o₂ ++ o₁)
        rwa [← append_assoc] at hlater

/-- What a read knows of the moments since the pass that authorized it began: each item was live, and at the epoch of
that beginning the principal was of the incarnation of `key` and the policy allowed each item. -/
structure Authorized (p : Principal) (key : PrincipalKey) (candidates : List GoString) (items : List Item)
    (begun : World)
    (since : List World) : Prop where
  live : ∀ item ∈ items, ∃ id ∈ candidates, ∃ m ∈ since, m.store.live id = some item
  allowed : Settled (since ++ [begun]) → (∀ m ∈ since ++ [begun], m.authority.Keyed) →
    begun.directory.incarnation p.userID = some key.incarnation ∧
    ∀ item ∈ items, ∃ m ∈ since, m.epoch = begun.epoch ∧
      Allows m.directory m.authority m.now p.userID key.incarnation item.scope

theorem Authorized.later {p : Principal} {key : PrincipalKey} {candidates : List GoString} {items : List Item}
    {begun : World} {since : List World} (h : Authorized p key candidates items begun since) (new : List World) :
    Authorized p key candidates items begun (new ++ since) where
  live item hitem := by
    obtain ⟨id, hid, m, hm, hlive⟩ := h.live item hitem
    exact ⟨id, hid, m, mem_append_right _ hm, hlive⟩
  allowed hset hkeyed := by
    rw [append_assoc] at hset hkeyed
    obtain ⟨hbegun, hitems⟩ := h.allowed hset.append.2.1 fun m hm => hkeyed m (mem_append_right _ hm)
    refine ⟨hbegun, fun item hitem => ?_⟩
    obtain ⟨m, hm, hallows⟩ := hitems item hitem
    exact ⟨m, mem_append_right _ hm, hallows⟩

theorem authorizedItems_observes (key : PrincipalKey) (candidates : List GoString) (passes : ℕ) :
    (authorizedItems cfg p key candidates passes).Observes fun result new => ∀ items epoch,
      result = some (items, epoch) → ∃ (since : List World) (begun : World) (before : List World),
        new = since ++ begun :: before ∧ begun.epoch = epoch ∧ Authorized p key candidates items begun since := by
  induction passes with
  | zero => exact .pure fun _ _ h => by cases h
  | succ passes ih =>
    refine .bind epochNow_observes fun epoch => .bind (activePrincipalKey_observes p) fun current => ?_
    split
    · exact .pure fun _ _ _ _ _ _ h => by cases h
    · next hcur =>
      refine .bind (authorizedPass_observes p candidates) fun allowed => .bind epochNow_observes fun epoch' => ?_
      split
      · next hepoch =>
        refine .pure fun o₄ hlast o₃ hpassed o₂ hkey o₁ hfirst items e hres => ?_
        cases hres
        obtain ⟨last, hlast, rfl⟩ := hlast
        obtain ⟨first, hfirst, rfl⟩ := hfirst
        obtain ⟨-, seen, hseen, hinc⟩ := hkey key (not_not.mp hcur)
        obtain ⟨o₁', before, rfl⟩ := append_of_mem hfirst
        refine ⟨o₄ ++ o₃ ++ o₂ ++ o₁', first, before, by simp, rfl, fun item hitem => ?_, fun hset hkeyed => ?_⟩
        · obtain ⟨id, hid, m, hm, hlive⟩ := hpassed.live item hitem
          exact ⟨id, hid, m, by simp [hm], hlive⟩
        · -- Everything between the two readings of the epoch has the policy of the first.
          obtain ⟨hlater, -, hle⟩ := hset.append
          have hfixed := fixed_between (o₃ ++ o₂) hepoch
            (fun m hm => hle m (by grind) first (mem_singleton_self first))
            fun m hm => by
              rw [append_assoc, append_assoc] at hlater
              exact hlater.append.2.2 last hlast m (by grind)
          have hseen' := hfixed seen (mem_append_right _ hseen)
          refine ⟨by rw [← hseen'.2.1]; exact hinc, fun item hitem => ?_⟩
          obtain ⟨m, hm, incarnation, hallows⟩ := hpassed.allowed hlater.append.1.append.1.append.2.1
            (fun m hm => hkeyed m (by simp [hm])) item hitem
          have hm' := hfixed m (mem_append_left _ hm)
          -- The incarnation that was resolved is that of the key.
          have hsame : incarnation = key.incarnation := by
            have hresolved := hallows.1
            rw [hm'.2.1, ← hseen'.2.1, hinc] at hresolved
            exact (Option.some.inj hresolved).symm
          subst hsame
          exact ⟨m, by simp [hm], hm'.1, hallows⟩
      · refine ih.mono fun result new hnew o₄ _ o₃ _ o₂ _ o₁ _ items e hres => ?_
        obtain ⟨since, begun, before, rfl, hbegun, hauth⟩ := hnew items e hres
        exact ⟨since, begun, before ++ o₄ ++ o₃ ++ o₂ ++ o₁, by simp, hbegun, hauth⟩

theorem principalEpochStillCurrent_observes (key : PrincipalKey) (epoch : ℕ) :
    (principalEpochStillCurrent cfg p key epoch).Observes fun current new => current = true →
      ∃ m ∈ new, m.epoch = epoch := by
  refine .bind (P := fun _ _ => True) ((activePrincipalKey_observes p).mono fun _ _ _ => trivial) fun current => ?_
  split
  · exact .pure fun _ _ h => by cases h
  · refine .bind epochNow_observes fun epoch' => .pure fun o₂ hm o₁ _ hcur => ?_
    obtain ⟨m, hm, rfl⟩ := hm
    exact ⟨m, by simp [hm], of_decide_eq_true hcur⟩

end Resolution

/-- What a read that returns knows of the moments since it found its candidates, the newest first: at the re-check the
epoch was again that of the beginning of the pass. -/
def Rechecked (p : Principal) (key : PrincipalKey) (candidates : List GoString) (items : List Item) (epoch : ℕ)
    (moments : List World) : Prop :=
  ∃ (after : List World) (rechecked : World) (since : List World) (begun : World) (before : List World),
    moments = after ++ rechecked :: (since ++ begun :: before) ∧
    begun.epoch = epoch ∧ rechecked.epoch = epoch ∧ Authorized p key candidates items begun since

theorem Rechecked.live {p : Principal} {key : PrincipalKey} {candidates : List GoString} {items : List Item} {epoch : ℕ}
    {moments : List World} (h : Rechecked p key candidates items epoch moments) {item : Item} (hitem : item ∈ items) :
    ∃ id ∈ candidates, ∃ m ∈ moments, m.store.live id = some item := by
  obtain ⟨after, rechecked, since, begun, before, rfl, -, -, hauth⟩ := h
  obtain ⟨id, hid, m, hm, hlive⟩ := hauth.live item hitem
  exact ⟨id, hid, m, by simp [hm], hlive⟩

section Reads

variable {cfg : Config} {c : Routine.Contract World} {post : ℕ → Result → List World → Prop} (hguar : ∀ w, c.guar w w)
  (herror : ∀ n e h, post n (.error e) h) (le : World → World → Prop)
  (hrely : ∀ n, 2 ≤ n → ∀ w w', c.rely n w w' → le w w') (hle : ∀ w w', c.guar w w' → le w w')
include hguar herror hrely hle

theorem answer_ensures {p : Principal} {key : PrincipalKey} {candidates : List GoString} {fromCache : Bool}
    {last : List Item → Call Unit} {h : List World}
    (hlast : ∀ items epoch n new, 2 ≤ n → Rechecked p key candidates items epoch new → Routine.Grows le h (new ++ h) →
      (last items).Ensures c
        (fun n _ h => post n (.reading ⟨key, items, epoch, fromCache, candidates⟩) h) n (new ++ h)) :
    (answer cfg p key candidates fromCache last).Ensures c post 2 h := by
  refine .bind (((authorizedItems_observes p key candidates maxAuthPasses c 2 h hguar).grows le hrely hle
    (Nat.le_refl 2)).mono ?_)
  rintro n₁ (_ | ⟨items, epoch⟩) _ ⟨⟨hn₁, old, rfl, hauth⟩, hgrows₁⟩
  · exact herror n₁ _ _
  · refine .bind (((principalEpochStillCurrent_observes p key epoch c n₁ (old ++ h) hguar).grows le hrely hle
      hn₁).mono ?_)
    rintro n₂ current _ ⟨⟨hn₂, new, rfl, hcur⟩, hgrows₂⟩
    split
    · next hstill =>
      obtain ⟨rechecked, hchk, hepoch⟩ := hcur hstill
      obtain ⟨after, between, rfl⟩ := append_of_mem hchk
      obtain ⟨since, begun, before, rfl, hbegun, hauth⟩ := hauth items epoch rfl
      have hensures := hlast items epoch n₂ (after ++ rechecked :: (between ++ since ++ begun :: before))
        (hn₁.trans hn₂) ⟨after, rechecked, _, begun, before, rfl, hbegun, hepoch, hauth.later between⟩
        (by simpa using hgrows₁.trans hgrows₂)
      refine .bind ?_
      simp only [append_assoc, cons_append] at hensures ⊢
      exact hensures
    · exact herror n₂ _ _

omit hrely hle herror in
theorem activePrincipalKey_ensures {p : Principal} {post : ℕ → Option PrincipalKey → List World → Prop}
    {n : ℕ} {h : List World} (hnone : ∀ n h, post n none h)
    (hsome : ∀ key h, key.userID = p.userID → post (n + 1) (some key) h) :
    (activePrincipalKey cfg p).Ensures c post n h := by
  unfold activePrincipalKey
  split
  · exact hnone n h
  · refine .reads hguar fun w h' _ _ => ?_
    cases w.directory.incarnation p.userID with
    | none => exact hnone (n + 1) _
    | some incarnation => exact hsome _ _ rfl

/-- A read finds its candidates in its second section; then it is denied or reaches its last section authorized. -/
theorem readWith_ensures {p : Principal} {valid : Bool} {find : PrincipalKey → Store → List GoString × Bool}
    {last : PrincipalKey → List GoString × Bool → List Item → Call Unit} {s : World}
    (hlast : ∀ key w old items epoch n new, c.inv w → key.userID = p.userID → 2 ≤ n →
      Rechecked p key (find key w.store).1 items epoch new → Routine.Grows le (w :: old) (new ++ w :: old) →
      (last key (find key w.store) items).Ensures c
        (fun n _ h => post n (.reading ⟨key, items, epoch, (find key w.store).2, (find key w.store).1⟩) h) n
        (new ++ w :: old)) :
    (readWith cfg p valid find last).Ensures c post 0 [s] := by
  refine .bind (activePrincipalKey_ensures hguar (fun n h => herror n _ h) fun key h₁ hkey => ?_)
  dsimp only
  split
  · exact herror 1 _ _
  · refine .bind (.reads hguar fun w h₂ _ hinv => ?_)
    exact answer_ensures hguar herror le hrely hle fun items epoch n new hn hchk hgrows =>
      hlast key w (w :: h₂) items epoch n new hinv hkey hn hchk hgrows

end Reads

end CodeMemory.Orgscope
