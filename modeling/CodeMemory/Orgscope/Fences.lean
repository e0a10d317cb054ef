import CodeMemory.Orgscope.Versions

/-! Erasing a scope or an owner. The call puts up a fence and takes a snapshot in one
section and erases in a later one; if it finds nothing and the fence was not there, it
takes the fence down again. `Put` respects fences but may move an item of the snapshot to
another scope or owner; `Restore` does not look at fences. Where neither happens, the
erasure is exact and permanent. -/

namespace CodeMemory.Orgscope

open Lib Lib.GoString Lib.GoMap

/-- A fence that no call is to take down. -/
def World.Permanent (w : World) (k : Fence) : Prop := w.store.fenced k = true ∧ w.lifting.lookup k = none

/-- Nothing is left behind the fence. -/
def World.Clear (w : World) (k : Fence) : Prop := ∀ id item, w.store.items.lookup id = some item → k.covers item = false

section Fences

variable {s : Store} {k k' : Fence}

theorem mem_covered {id : GoString} : id ∈ s.covered k ↔ ∃ item, s.items.lookup id = some item ∧
    k.covers item = true := by
  rw [Store.covered, List.mem_filter, Option.any_eq_true, mem_sortedKeys]
  constructor
  · rintro ⟨-, item, hitem, hcov⟩
    exact ⟨item, hitem, hcov⟩
  · rintro ⟨item, hitem, hcov⟩
    exact ⟨mem_keys_of_lookup hitem, item, hitem, hcov⟩

theorem fenced_fence : (s.fence k).fenced k' = (decide (k' = k) || s.fenced k') := by
  cases k with
  | scope target =>
    cases k' with
    | scope target' => simp [Store.fence, Store.fenced]
    | owner userID => rfl
  | owner userID =>
    cases k' with
    | scope target => rfl
    | owner userID' => simp [Store.fence, Store.fenced]

theorem fenced_unfence (h : k' ≠ k) : (s.unfence k).fenced k' = s.fenced k' := by
  cases k with
  | scope target =>
    cases k' with
    | scope target' => simp_all [Store.unfence, Store.fenced]
    | owner userID => rfl
  | owner userID =>
    cases k' with
    | scope target => rfl
    | owner userID' => simp_all [Store.unfence, Store.fenced]

theorem items_fence : (s.fence k).items = s.items := by
  cases k <;> rfl

theorem items_unfence : (s.unfence k).items = s.items := by
  cases k <;> rfl

end Fences

/-- A fence that is to come down has nothing behind it. -/
structure World.Fenced (cfg : Config) (w : World) : Prop where
  exact : w.Exact cfg
  lifts : ∀ k callID, w.lifting.lookup k = some callID → w.store.fenced k = true ∧ w.Clear k

/-- Fences stay, and nothing comes in behind those that are permanent. -/
structure World.Secures (cfg : Config) (w w' : World) : Prop where
  lasts : w.Lasts cfg w'
  permanent : ∀ k, w.Permanent k → w'.Permanent k
  closed : ∀ k, w.Permanent k → ∀ id ∈ w'.store.covered k, id ∈ w.store.covered k

section Secures

variable {cfg : Config} {w w' : World}

theorem World.Secures.refl (w : World) : w.Secures cfg w := ⟨.refl w, fun _ h => h, fun _ _ _ h => h⟩

theorem World.Secures.trans {w₁ w₂ w₃ : World} (h : w₁.Secures cfg w₂) (h' : w₂.Secures cfg w₃) : w₁.Secures cfg w₃ :=
  ⟨h.lasts.trans h'.lasts, fun k hk => h'.permanent k (h.permanent k hk),
    fun k hk id hid => h.closed k hk id (h'.closed k (h.permanent k hk) id hid)⟩

theorem clear_iff {k : Fence} : w.Clear k ↔ ∀ id, id ∉ w.store.covered k := by
  constructor
  · intro hclear id hid
    obtain ⟨item, hitem, hcov⟩ := mem_covered.mp hid
    rw [hclear id item hitem] at hcov
    cases hcov
  · intro hnone id item hitem
    exact Bool.eq_false_iff.mpr fun hcov => hnone id (mem_covered.mpr ⟨item, hitem, hcov⟩)

/-- What a permanent fence has cleared stays clear. -/
theorem World.Secures.clear (h : w.Secures cfg w') {k : Fence} (hk : w.Permanent k) (hclear : w.Clear k) : w'.Clear k :=
  clear_iff.mpr fun id hid => clear_iff.mp hclear id (h.closed k hk id hid)

end Secures

/-- The fences and their notes are as they were, and nothing comes in behind a fence. -/
structure World.Respects (cfg : Config) (w w' : World) : Prop where
  lasts : w.Lasts cfg w'
  fences : ∀ k, w'.store.fenced k = w.store.fenced k
  lifting : w'.lifting = w.lifting
  closed : ∀ k, w.store.fenced k = true → ∀ id ∈ w'.store.covered k, id ∈ w.store.covered k

section Respects

variable {cfg : Config} {w w' : World}

theorem World.Respects.fenced (h : w.Respects cfg w') (hw : w.Fenced cfg) : w'.Fenced cfg := by
  refine ⟨h.lasts.exact hw.exact, fun k callID hk => ?_⟩
  rw [h.lifting] at hk
  obtain ⟨hfenced, hclear⟩ := hw.lifts k callID hk
  exact ⟨h.fences k ▸ hfenced, clear_iff.mpr fun id hid => clear_iff.mp hclear id (h.closed k hfenced id hid)⟩

theorem World.Respects.secures (h : w.Respects cfg w') : w.Secures cfg w' :=
  ⟨h.lasts, fun k hk => ⟨h.fences k ▸ hk.1, h.lifting ▸ hk.2⟩, fun k hk => h.closed k hk.1⟩

theorem World.Respects.of_kept (hlasts : w.Lasts cfg w') (hfences : ∀ k, w'.store.fenced k = w.store.fenced k)
    (hlifting : w'.lifting = w.lifting)
    (hkept : ∀ id item, w'.store.items.lookup id = some item → w.store.items.lookup id = some item) :
    w.Respects cfg w' := by
  refine ⟨hlasts, hfences, hlifting, fun k _ id hid => ?_⟩
  obtain ⟨item, hitem, hcov⟩ := mem_covered.mp hid
  exact mem_covered.mpr ⟨item, hkept id item hitem, hcov⟩

/-- A backup brings nothing in behind a fence: an item that is not tombstoned and behind one is there already. -/
def Backup.Respects (b : Backup) (s : Store) : Prop :=
  ∀ item ∈ b.items, item.id ∉ s.tombstones.keys → item.id ∉ b.tombstones.map Tombstone.itemID →
    ∀ k ∈ [Fence.scope item.scope, .owner item.owner], s.fenced k = true → item.id ∈ s.covered k

instance (b : Backup) (s : Store) : Decidable (b.Respects s) :=
  inferInstanceAs (Decidable (∀ item ∈ b.items, item.id ∉ s.tombstones.keys →
    item.id ∉ b.tombstones.map Tombstone.itemID →
    ∀ k ∈ [Fence.scope item.scope, .owner item.owner], s.fenced k = true → item.id ∈ s.covered k))

def Effect.Respects (s : Store) : Effect → Prop
  | .restore b => b.Respects s
  | _ => True

instance (s : Store) : ∀ e : Effect, Decidable (e.Respects s)
  | .restore b => inferInstanceAs (Decidable (b.Respects s))
  | .plain | .put _ | .fence => isTrue trivial

theorem covers_iff {k : Fence} {item : Item} : k.covers item = true ↔
    k ∈ [Fence.scope item.scope, .owner item.owner] := by
  cases k <;> simp [Fence.covers, eq_comm]

theorem Step.respects {e : Effect} (h : Step cfg w e w') (he : e ≠ .fence) (hok : e.Respects w.store) :
    w.Respects cfg w' := by
  have hlasts := h.lasts
  cases h with
  | same | tick _ now | directory _ d raised | authority _ a d raised keyed =>
    exact .of_kept hlasts (fun _ => rfl) rfl fun _ _ h => h
  | erase _ reason now ids =>
    have hcalms : w.Calms cfg _ := (Step.erase .plain reason now ids).calms rfl
    exact .of_kept hlasts (fun k => by cases k <;> rfl) rfl hcalms.kept
  | rebuild _ order =>
    have hcalms : w.Calms cfg _ := (Step.rebuild .plain order).calms rfl
    exact .of_kept hlasts (rebuild_rebuilds cfg w.store order).fences rfl hcalms.kept
  | fence scopes owners lifting => exact absurd rfl he
  | put item s hput =>
    have hputs := puts_of_put hput
    refine ⟨hlasts, hputs.fences, rfl, fun k hk id hid => ?_⟩
    obtain ⟨item', hitem', hcov⟩ := mem_covered.mp hid
    rw [show ({ w with store := s } : World).store.items = _ from hputs.items, lookup_insert_eq] at hitem'
    split_ifs at hitem'
    · cases hitem'
      rw [hputs.unfenced k hcov] at hk
      cases hk
    · exact mem_covered.mpr ⟨item', hitem', hcov⟩
  | restore order b =>
    have hrest := restore_restores cfg w.store order b
    refine ⟨hlasts, hrest.fences, rfl, fun k hk id hid => ?_⟩
    obtain ⟨item, hitem, hcov⟩ := mem_covered.mp hid
    obtain ⟨hmem, rfl⟩ := hrest.items id item hitem
    have hlive : item.id ∉ (w.store.restore cfg order b).tombstones.keys := by
      intro hdead
      rw [hrest.exact.items item.id hdead] at hitem
      cases hitem
    rw [hrest.tombstones, not_or] at hlive
    exact hok item hmem hlive.1 hlive.2 k (covers_iff.mp hcov) hk

end Respects

section Fencing

variable {cfg : Config} {w : World} {callID : ℕ} {k : Fence}

theorem covered_fence (k' : Fence) : (w.fence callID k).store.covered k' = w.store.covered k' := by
  simp only [World.fence, Store.covered, items_fence]

theorem covered_unfence (k' : Fence) : (w.unfence k).store.covered k' = w.store.covered k' := by
  simp only [World.unfence, Store.covered, items_unfence]

/-- Only a fence that was not there is noted. -/
theorem lifting_fence {k' : Fence} (h : k' ≠ k ∨ w.store.fenced k = true) :
    (w.fence callID k).lifting.lookup k' = w.lifting.lookup k' := by
  simp only [World.fence]
  split_ifs with hnew
  · rw [lookup_insert_eq, if_neg (h.resolve_right (by simp [hnew.2]))]
  · rfl

theorem World.Fenced.fence (hw : w.Fenced cfg) : (w.fence callID k).Fenced cfg := by
  refine ⟨(fence_step callID k).lasts.exact hw.exact, fun k' j hk' => ?_⟩
  rw [clear_iff, covered_fence]
  change (w.store.fence k).fenced k' = true ∧ _
  rw [fenced_fence]
  by_cases hnote : k' ≠ k ∨ w.store.fenced k = true
  · rw [lifting_fence hnote] at hk'
    obtain ⟨hfenced, hclear⟩ := hw.lifts k' j hk'
    exact ⟨by rw [hfenced, Bool.or_true], clear_iff.mp hclear⟩
  · -- The note of this call: it found nothing.
    obtain ⟨rfl, hfenced⟩ := not_or.mp hnote |>.imp_left not_not.mp
    refine ⟨by simp, ?_⟩
    by_cases hfound : w.store.covered k' = []
    · simp [hfound]
    · simp only [World.fence, hfound, false_and, if_false] at hk'
      exact absurd (hw.lifts k' j hk').1 hfenced

theorem secures_fence : w.Secures cfg (w.fence callID k) := by
  refine ⟨(fence_step callID k).lasts, fun k' hk' => ⟨?_, ?_⟩, fun k' _ id hid => ?_⟩
  · change (w.store.fence k).fenced k' = true
    rw [fenced_fence, hk'.1, Bool.or_true]
  · rw [lifting_fence]
    · exact hk'.2
    · by_cases heq : k' = k
      · exact .inr (heq ▸ hk'.1)
      · exact .inl heq
  · rwa [covered_fence] at hid

/-- A call that finds something behind the fence makes it permanent. -/
theorem World.Fenced.permanent (hw : w.Fenced cfg) (hfound : w.store.covered k ≠ []) :
    (w.fence callID k).Permanent k := by
  constructor
  · change (w.store.fence k).fenced k = true
    simp [fenced_fence]
  · simp only [World.fence, hfound, false_and, if_false]
    cases hnote : w.lifting.lookup k with
    | none => rfl
    | some j =>
      have hclear := clear_iff.mp (hw.lifts k j hnote).2
      exact absurd (List.eq_nil_iff_forall_not_mem.mpr hclear) hfound

theorem World.Fenced.unfence (hw : w.Fenced cfg) : (w.unfence k).Fenced cfg := by
  refine ⟨(unfence_step k).lasts.exact hw.exact, fun k' j hk' => ?_⟩
  simp only [World.unfence, lookup_erase_eq] at hk'
  split_ifs at hk' with heq
  obtain ⟨hfenced, hclear⟩ := hw.lifts k' j hk'
  rw [clear_iff, covered_unfence]
  exact ⟨(fenced_unfence heq).trans hfenced, clear_iff.mp hclear⟩

/-- The call that noted a fence may take it down. -/
theorem secures_unfence (hnote : w.lifting.lookup k = some callID) : w.Secures cfg (w.unfence k) := by
  refine ⟨(unfence_step k).lasts, fun k' hk' => ?_, fun k' _ id hid => ?_⟩
  · have hne : k' ≠ k := by
      rintro rfl
      rw [hk'.2] at hnote
      cases hnote
    refine ⟨(fenced_unfence hne).trans hk'.1, ?_⟩
    simp only [World.unfence, lookup_erase_eq, if_neg hne]
    exact hk'.2
  · rwa [covered_unfence] at hid

end Fencing

/-- What was behind the fence stays there or is tombstoned. -/
structure World.Holds (cfg : Config) (k : Fence) (w w' : World) : Prop where
  secures : w.Secures cfg w'
  stays : ∀ id ∈ w.store.covered k, id ∈ w'.store.covered k ∨ id ∈ w'.store.tombstones.keys

/-- A section moves nothing out from behind the fence. -/
def Effect.Spares (k : Fence) (s : Store) : Effect → Prop
  | .put item => item.id ∈ s.covered k → k.covers item = true
  | .restore b => ∀ id ∈ s.covered k, id ∈ b.tombstones.map Tombstone.itemID ∨
      (∃ item ∈ b.items, item.id = id) ∧ ∀ item ∈ b.items, item.id = id → k.covers item = true
  | _ => True

instance (k : Fence) (s : Store) : ∀ e : Effect, Decidable (e.Spares k s)
  | .put item => inferInstanceAs (Decidable (item.id ∈ s.covered k → k.covers item = true))
  | .restore b => inferInstanceAs (Decidable (∀ id ∈ s.covered k, id ∈ b.tombstones.map Tombstone.itemID ∨
      (∃ item ∈ b.items, item.id = id) ∧ ∀ item ∈ b.items, item.id = id → k.covers item = true))
  | .plain | .fence => isTrue trivial

section Holds

variable {cfg : Config} {w w' : World} {k : Fence}

theorem World.Holds.refl (w : World) : w.Holds cfg k w := ⟨.refl w, fun _ h => .inl h⟩

theorem World.Holds.trans {w₁ w₂ w₃ : World} (h : w₁.Holds cfg k w₂) (h' : w₂.Holds cfg k w₃) : w₁.Holds cfg k w₃ := by
  refine ⟨h.secures.trans h'.secures, fun id hid => ?_⟩
  rcases h.stays id hid with hid | hdead
  · exact h'.stays id hid
  · exact .inr (h'.secures.lasts.tombstones hdead)

theorem World.Calms.stays (h : w.Calms cfg w') :
    ∀ id ∈ w.store.covered k, id ∈ w'.store.covered k ∨ id ∈ w'.store.tombstones.keys := by
  intro id hid
  obtain ⟨item, hitem, hcov⟩ := mem_covered.mp hid
  exact (h.erased id item hitem).imp_left fun hitem => mem_covered.mpr ⟨item, hitem, hcov⟩

theorem Step.stays {e : Effect} (h : Step cfg w e w') (hspares : e.Spares k w.store) :
    ∀ id ∈ w.store.covered k, id ∈ w'.store.covered k ∨ id ∈ w'.store.tombstones.keys := by
  obtain hcalms | ⟨item, s, rfl, hput, rfl⟩ | ⟨order, b, rfl, rfl⟩ := h.calms_or
  · exact hcalms.stays
  · intro id hid
    obtain ⟨old, hold, hcov⟩ := mem_covered.mp hid
    refine .inl (mem_covered.mpr ?_)
    rw [show ({ w with store := s } : World).store.items = _ from (puts_of_put hput).items, lookup_insert_eq]
    split_ifs with heq
    · exact ⟨item, rfl, hspares (heq ▸ hid)⟩
    · exact ⟨old, hold, hcov⟩
  · intro id hid
    have hrest := restore_restores cfg w.store order b
    by_cases hdead : id ∈ (w.store.restore cfg order b).tombstones.keys
    · exact .inr hdead
    · rcases hspares id hid with hstone | ⟨hthere, hall⟩
      · exact absurd ((hrest.tombstones id).mpr (.inr hstone)) hdead
      · obtain ⟨item, hitem⟩ := hrest.present id hthere hdead
        obtain ⟨hmem, hid⟩ := hrest.items id item hitem
        exact .inl (mem_covered.mpr ⟨item, hitem, hall item hmem hid⟩)

end Holds

/-- What a call erases as a whole. -/
def Request.fence : Request → Option Fence
  | .eraseScope _ scope => some (.scope scope)
  | .eraseOwner _ userID => some (.owner userID)
  | _ => none

/-- Between its snapshot and its erasure such a call relies on nothing being moved out from behind its fence, and always
on its own note. -/
def fencing (cfg : Config) : Routine.Discipline Request World where
  inv := World.Fenced cfg
  ok q w := q.effect.Respects w.store
  rely callID q n w w' := w.Secures cfg w' ∧
    (∀ k, w.lifting.lookup k = some callID → w'.lifting.lookup k = some callID) ∧
    ∀ k ∈ q.fence, 1 ≤ n → n ≤ 2 → w.Holds cfg k w'
  guar callID q w w' := w.Secures cfg w' ∧
    (∀ k j, j ≠ callID → w.lifting.lookup k = some j → w'.lifting.lookup k = some j) ∧
    (q.effect.disturbs = true → Step cfg w q.effect w') ∧ (q.effect.disturbs = false → w.Calms cfg w')

/-- The ids of a receipt are those of all items behind the fence in the call's snapshot and of no others. The call
erased them in one section, and none of them was outside then. -/
def ErasureReceipt.Exact (r : ErasureReceipt) (k : Fence) (seen : List World) : Prop :=
  ∃ (snapshot : World) (reason : GoString) (now : Int) (ids : List GoString),
    r.snapshot = some snapshot ∧ ids.Perm r.itemIDs ∧
    [{ r.erasing with store := r.erasing.store.erase reason now ids }, r.erasing, snapshot].Sublist seen ∧
    (∀ id, id ∈ r.itemIDs ↔ ∃ item, snapshot.store.items.lookup id = some item ∧ k.covers item = true) ∧
    ∀ id ∈ r.itemIDs, ∀ item, r.erasing.store.items.lookup id = some item → k.covers item = true

/-- What a call has done that erased what was behind a fence; nothing is left there. -/
def Exacts (q : Request) (result : Result) (seen : List World) : Prop :=
  ∀ k ∈ q.fence, ∀ r, result = .erasure r →
    r.Exact k seen ∧ ∃ last rest, seen = last :: rest ∧ last.Permanent k ∧ last.Clear k

section Calls

variable {cfg : Config} {callID : ℕ} {q : Request} {k : Fence} {w w' : World}

theorem guar_of_calms (hplain : q.effect.disturbs = false) (hsecures : w.Secures cfg w')
    (hnotes : ∀ k j, j ≠ callID → w.lifting.lookup k = some j → w'.lifting.lookup k = some j)
    (hcalms : w.Calms cfg w') :
    ((fencing cfg).contract callID q).guar w w' :=
  ⟨hsecures, hnotes, fun h => (Bool.false_ne_true (hplain ▸ h)).elim, fun _ => hcalms⟩

theorem guar_refl (w : World) (hplain : q.effect.disturbs = false) : ((fencing cfg).contract callID q).guar w w :=
  guar_of_calms hplain (.refl w) (fun _ _ _ h => h) (.refl w)

/-- A section that leaves the fences. -/
theorem guar_of_respects (h : w.Respects cfg w') (hplain : q.effect.disturbs = false)
    (hcalms : w.Calms cfg w') : ((fencing cfg).contract callID q).guar w w' :=
  guar_of_calms hplain h.secures (fun _ _ _ hnote => h.lifting ▸ hnote) hcalms

theorem allowed_plain (hplain : q.effect.disturbs = false) : Allowed cfg ((fencing cfg).contract callID q) .plain := by
  intro w w' hstep hw _
  have hrespects := hstep.respects (fun h => by cases h) trivial
  exact ⟨hrespects.fenced hw, guar_of_respects hrespects hplain (hstep.calms rfl)⟩

theorem allowed_fencing (hfence : q.effect ≠ .fence) : Allowed cfg ((fencing cfg).contract callID q) q.effect := by
  intro w w' hstep hw hok
  have hrespects := hstep.respects hfence hok
  exact ⟨hrespects.fenced hw, hrespects.secures, fun _ _ _ hnote => hrespects.lifting ▸ hnote, fun _ => hstep,
    hstep.calms⟩

theorem secures_of_rely {n : ℕ} (h : ((fencing cfg).contract callID q).rely n w w') : w.Secures cfg w' :=
  h.1

theorem secures_of_guar (h : ((fencing cfg).contract callID q).guar w w') : w.Secures cfg w' := h.1

theorem World.Holds.covers (h : w.Holds cfg k w') (hw : w'.Fenced cfg) {id : GoString} (hid : id ∈ w.store.covered k)
    {item : Item} (hitem : w'.store.items.lookup id = some item) : k.covers item = true := by
  rcases h.stays id hid with hstill | hdead
  · obtain ⟨item', hitem', hcov⟩ := mem_covered.mp hstill
    rw [hitem] at hitem'
    cases hitem'
    exact hcov
  · rw [hw.exact.store.items id hdead] at hitem
    cases hitem

theorem World.clear_erase (reason : GoString) (now : Int) {ids : List GoString}
    (h : ∀ id ∈ w.store.covered k, id ∈ ids) : { w with store := w.store.erase reason now ids }.Clear k := by
  intro id item hitem
  rw [items_erase] at hitem
  split_ifs at hitem with hid
  refine Bool.eq_false_iff.mpr fun hcov => hid (List.mem_toFinset.mpr ?_)
  exact h id (mem_covered.mpr ⟨item, hitem, hcov⟩)

/-- The erasure of a snapshot, after which nothing is left behind the fence. -/
theorem erase_exacts (hq : q.fence = some k) (hplain : q.effect.disturbs = false) (reason : GoString) {w₀ w₁ : World}
    {h : List World} (hperm : w₁.Permanent k) (hsame : w₁.store.covered k = w₀.store.covered k) :
    (erase (some w₀) reason (w₀.store.covered k)).Ensures ((fencing cfg).contract callID q) (fun _ => Exacts q) 1
      (w₁ :: w₀ :: h) := by
  unfold erase
  split
  swap
  · intro _ _ r hres
    cases hres
  refine .bind (.reads (fun w => guar_refl w hplain) fun w₂ h₂ hgrows₂ _ => ?_)
  refine .bind (.atomic fun w₃ h₃ hgrows₃ hw₃ hok _ => ?_)
  set ids := w₀.store.covered k
  set w₄ : World := { w₃ with store := w₃.store.erase reason w₂.now ids }
  have hstep : Step cfg w₃ .plain w₄ := .erase .plain reason w₂.now ids
  obtain ⟨hkeeps, hguar⟩ := allowed_plain hplain _ _ hstep hw₃ hok
  refine ⟨hkeeps, hguar, ?_⟩
  -- From the snapshot to the erasure nothing was moved out, and nothing came in.
  have hholds : w₁.Holds cfg k w₃ := by
    have hto₂ : w₁.Holds cfg k w₂ :=
      (hgrows₂.mono fun _ _ hrely => hrely.2.2 k hq (Nat.le_refl 1) (by decide)).head .refl fun _ _ _ => .trans
    have hto₃ : w₂.Holds cfg k w₃ :=
      (hgrows₃.mono fun _ _ hrely => hrely.2.2 k hq (by decide) (Nat.le_refl 2)).head .refl fun _ _ _ => .trans
    exact hto₂.trans hto₃
  have hcovered : ∀ id ∈ w₃.store.covered k, id ∈ ids := fun id hid => hsame ▸ hholds.secures.closed k hperm id hid
  have hsecures := (hstep.respects (fun h => by cases h) trivial).secures
  have hperm₄ := hsecures.permanent k (hholds.secures.permanent k hperm)
  have hclear₄ : w₄.Clear k := World.clear_erase reason w₂.now hcovered
  -- What the call does afterwards leaves that so.
  have hallow : Allowed cfg ((fencing cfg).contract callID q) .plain := allowed_plain hplain
  have hrest : (do
      Routine.atomic fun _ w => ((), { w with directory := w.directory.emit })
      let complete ← Routine.reads fun w => w.store.erased ids
      pure (.erasure ⟨sortStrings ids, complete, some w₀, w₃⟩) : Call Result).Ensures ((fencing cfg).contract callID q)
        (fun _ result _ => ∃ complete, result = .erasure ⟨sortStrings ids, complete, some w₀, w₃⟩) 3 (w₄ :: w₃ :: h₃) :=
    .bind ((completes_atomic hallow fun _ w => .directory .plain _ w.directory.raised_emit).mono fun _ _ _ _ =>
      .bind ((completes_reads hallow).mono fun _ complete _ _ => ⟨complete, rfl⟩))
  refine (hrest.grows (World.Secures cfg) (fun _ _ _ _ => secures_of_rely) (fun _ _ => secures_of_guar)
    (Nat.zero_le 3)).mono ?_
  rintro _ _ seen ⟨⟨complete, rfl⟩, hgrows⟩ k' hk' r hr
  cases hr
  obtain rfl : k = k' := Option.some.inj (hq.symm.trans hk')
  obtain ⟨new, rfl, habove⟩ := hgrows.above fun _ _ _ => .trans
  have hperm := perm_sortStrings ids
  constructor
  · refine ⟨w₀, reason, w₂.now, ids, rfl, hperm.symm, ?_, fun id => hperm.mem_iff.trans mem_covered,
      fun id hid item => hholds.covers hw₃ (hsame ▸ hperm.mem_iff.mp hid)⟩
    have hmem : w₀ ∈ h₃ := hgrows₃.tail (List.mem_cons_of_mem w₂ (hgrows₂.tail (.head _)))
    have hthree := ((List.singleton_sublist.mpr hmem).cons_cons w₃).cons_cons w₄
    exact hthree.trans (List.sublist_append_right _ _)
  · cases new with
    | nil => exact ⟨_, _, rfl, hperm₄, hclear₄⟩
    | cons last new =>
      have hlast := habove last (.head _)
      exact ⟨last, _, rfl, hlast.permanent k hperm₄, hlast.clear hperm₄ hclear₄⟩

theorem eraseFenced_exacts (hq : q.fence = some k) (hplain : q.effect.disturbs = false) (reason : GoString)
    (w : World) :
    (eraseFenced callID k reason).Ensures ((fencing cfg).contract callID q) (fun _ => Exacts q) 0 [w] := by
  refine .bind (.atomic fun w₀ h hgrows hw _ _ => ⟨hw.fence,
    guar_of_calms hplain secures_fence (fun k' j hj hnote => ?_) ((fence_step callID k).calms rfl), ?_⟩)
  · -- A note for this fence would mean that the fence was there.
    rw [lifting_fence]
    · exact hnote
    · by_cases heq : k' = k
      · exact .inr (heq ▸ (hw.lifts k' j hnote).1)
      · exact .inl heq
  · dsimp only
    split
    · next hfound =>
      split
      · exact fun _ _ r hres => by cases hres
      · next hfenced =>
        -- The note of this call is still there when it takes the fence down.
        refine .bind (.atomic fun w₂ h₂ hgrows₂ hw₂ _ _ => ?_)
        have hnote : w₂.lifting.lookup k = some callID := by
          have hfirst : (w₀.fence callID k).lifting.lookup k = some callID := by
            simp [World.fence, hfound, Bool.eq_false_iff.mpr hfenced]
          exact (hgrows₂.mono fun _ _ hrely => hrely.2.1 k).head (fun _ h => h)
            (fun _ _ _ h h' hnote => h' (h hnote)) hfirst
        refine ⟨hw₂.unfence,
          guar_of_calms hplain (secures_unfence hnote) (fun k' j hj hk' => ?_) ((unfence_step k).calms rfl), ?_⟩
        · have hne : k' ≠ k := by
            rintro rfl
            exact hj (Option.some.inj (hk'.symm.trans hnote))
          simp only [World.unfence, lookup_erase_eq, if_neg hne]
          exact hk'
        · exact fun _ _ r hres => by cases hres
    · next hfound => exact erase_exacts hq hplain reason (hw.permanent hfound) (covered_fence k)

theorem record_respects (w : World) (key : CacheKey) (fromCache : Bool) (candidates ids : List GoString)
    (served : List (PrincipalKey × Item)) :
    w.Respects cfg { w with store := w.store.record key fromCache candidates ids, served := served } :=
  .of_kept (record_lasts w _ _ _ _ _) (fun k => by cases k <;> rfl) rfl fun _ _ h => h

/-- A read has nothing to answer for. -/
theorem readWith_fencing (hq : q.fence = none) (hplain : q.effect.disturbs = false) {p : Principal} {valid : Bool}
    {find : PrincipalKey → Store → List GoString × Bool}
    {last : PrincipalKey → List GoString × Bool → List Item → Call Unit}
    (hlast : ∀ key found items n h, Completes ((fencing cfg).contract callID q) (last key found items) n h) :
    (readWith cfg p valid find last).Ensures ((fencing cfg).contract callID q) (fun _ => Exacts q) 0 [w] := by
  have hvac : ∀ result seen, Exacts q result seen := by
    intro result seen k hk
    rw [hq] at hk
    cases hk
  refine readWith_ensures (fun w => guar_refl w hplain) (fun _ _ _ => hvac _ _) (fun _ _ => True)
    (fun _ _ _ _ _ => trivial) (fun _ _ _ => trivial) fun key w old items epoch n new _ _ _ _ _ => ?_
  exact (hlast key _ items n _).mono fun _ _ _ _ => hvac _ _

theorem routine_exacts (cfg : Config) : Routine.Keeps (routine cfg) (fencing cfg) Exacts := by
  intro callID q w _
  have haudit : q.effect.disturbs = false → ∀ (key : PrincipalKey) (found : List GoString × Bool) items n h,
      Completes ((fencing cfg).contract callID q) (auditRead items) n h :=
    fun hplain _ _ _ _ _ => completes_reads (allowed_plain hplain)
  have hvac : q.fence = none → Completes ((fencing cfg).contract callID q) (routine cfg callID q) 0 [w] →
      (routine cfg callID q).Ensures ((fencing cfg).contract callID q) (fun _ => Exacts q) 0 [w] := by
    intro hnone hcomp
    refine hcomp.mono fun _ _ _ _ k hk => ?_
    rw [hnone] at hk
    cases hk
  have hrej : ∀ e seen, Exacts q (.error e) seen := fun e seen _ _ r hres => by cases hres
  cases q with
  | eraseScope reason scope =>
    simp only [routine, eraseScope]
    split
    · exact eraseFenced_exacts rfl rfl reason w
    · exact hrej _ _
  | eraseOwner reason userID =>
    simp only [routine, eraseOwner]
    split
    · exact eraseFenced_exacts rfl rfl reason w
    · exact hrej _ _
  | query p text =>
    simp only [routine, query]
    refine readWith_fencing rfl rfl fun key found items n h => ?_
    refine .atomic fun w h' _ hw _ _ => ⟨(record_respects w _ _ _ _ _).fenced hw, ?_, trivial⟩
    exact guar_of_respects (record_respects w _ _ _ _ _) rfl (.of_items (record_lasts w _ _ _ _ _) rfl)
  | searchClaims | history | graph | replay =>
    simp only [routine, searchClaims, history, graph, replay]
    exact readWith_fencing rfl rfl (haudit rfl)
  | _ => exact hvac rfl (change_completes (allowed_fencing fun h => by cases h) callID rfl)

end Calls

/-- A section of `Restore` brings nothing in behind a fence, and while an erasure has taken its snapshot and not yet
erased, no section of `Put` or `Restore` moves an item out from behind its fence. -/
def Spared (sys : Routine.System Request (List GoString) World Result) : Routine.Event Request (List GoString) → Prop
  | .call _ => True
  | .resume n _ => ∀ f ∈ sys.flights[n]?, f.request.effect.Respects sys.shared.store ∧
      ∀ g ∈ sys.flights.eraseIdx n, ∀ k ∈ g.request.fence, 1 ≤ g.ran → g.ran ≤ 2 →
        f.request.effect.Spares k sys.shared.store

instance (sys : Routine.System Request (List GoString) World Result) :
    ∀ e : Routine.Event Request (List GoString), Decidable (Spared sys e)
  | .call _ => isTrue trivial
  | .resume n _ => inferInstanceAs (Decidable (∀ f ∈ sys.flights[n]?, f.request.effect.Respects sys.shared.store ∧
      ∀ g ∈ sys.flights.eraseIdx n, ∀ k ∈ g.request.fence, 1 ≤ g.ran → g.ran ≤ 2 →
        f.request.effect.Spares k sys.shared.store))

theorem tolerant_fencing (cfg : Config) : Routine.Tolerant Spared (fencing cfg) := by
  refine ⟨fun sys n i f hC hf => (hC f hf).1, fun sys n i f hC hf s' hguar g hg hne => ?_⟩
  obtain ⟨hsecures, hnotes, hstep, hcalms⟩ := hguar
  refine ⟨hsecures, fun k hk => hnotes k g.id hne hk, fun k hk hfrom hto => ⟨hsecures, ?_⟩⟩
  cases hdisturbs : f.request.effect.disturbs with
  | false => exact (hcalms hdisturbs).stays
  | true => exact (hstep hdisturbs).stays ((hC f hf).2 g hg k hk hfrom hto)

theorem fenced_start (now : Int) (cfg : Config) : (World.new now).Fenced cfg :=
  ⟨exact_start now, fun k callID h => by simp [World.new] at h⟩

/-- Erasing a scope or an owner is exact and permanent, in every interleaving in which `Restore` brings nothing in
behind a fence, and nothing is moved out from behind the fence of an erasure between its snapshot and its erasure: a
successful call erases every item that was in the scope (of the owner) in its snapshot, by its receipt no other, and no
item that is outside when it is erased, and from then on no item of the scope (of the owner) is live. -/
theorem fenced_erasure_exact (cfg : Config) (now : Int) (before after : List (Routine.Event Request (List GoString)))
    (hes : Schedule.Meets (Routine.System.step (routine cfg)) Spared (Routine.System.start (World.new now))
      (before ++ after))
    (q : Request) (k : Fence) (hq : q.fence = some k) (r : ErasureReceipt) (seen : List World)
    (hreturn : ⟨q, .erasure r, seen⟩ ∈
      ((Routine.System.start (World.new now)).run (routine cfg) before).returns) :
    r.Exact k seen ∧ ∀ id item,
      ((Routine.System.start (World.new now)).run (routine cfg) (before ++ after)).shared.store.live id = some item →
        k.covers item = false := by
  obtain ⟨hbef, hafter⟩ := Schedule.meets_append.mp hes
  have hle : ∀ callID q w w', (fencing cfg).guar callID q w w' → w.Secures cfg w' := fun _ _ _ _ h => h.1
  have hsound := Routine.System.Sound.run (routine_exacts cfg) (tolerant_fencing cfg) (fenced_start now cfg) hbef
  obtain ⟨hexact, last, rest, hlast, hperm, hclear⟩ := hsound.returned _ hreturn k hq r rfl
  refine ⟨hexact, fun id item hlive => ?_⟩
  -- The fence was permanent when the call returned.
  obtain ⟨last', rest', hlast', hsecures⟩ := Routine.System.Sound.run_returns .refl (fun _ _ _ => .trans) hle
    (routine_exacts cfg) (tolerant_fencing cfg) (fenced_start now cfg) hbef _ hreturn
  obtain ⟨rfl, -⟩ := List.cons.inj (hlast.symm.trans hlast')
  have hsecures' := hsecures.trans
    (hsound.run_le .refl (fun _ _ _ => .trans) hle (routine_exacts cfg) (tolerant_fencing cfg) hafter)
  rw [Routine.System.run, List.foldl_append] at hlive
  unfold Store.live at hlive
  split_ifs at hlive
  exact hsecures'.clear hperm hclear id item hlive

def sampleErasure : Request := .eraseScope (lit "r") sampleScope

/-- The item of the snapshot, moved to the user's own scope. -/
def sampleMovedItem : Item := { sampleItem "x" "go" with scope := ⟨.individual, lit "u"⟩ }

/-- An item is moved between the snapshot and the erasure. -/
def sampleMoved : List (Routine.Event Request (List GoString)) :=
  sampleSetup ++ alone sampleErasure 1 ++
    ([.call (.put sampleMovedItem), .resume 1 []] : List (Routine.Event Request (List GoString))) ++
    List.replicate 4 (.resume 0 [])

/-- A backup with another item of the scope is restored after the erasure. -/
def sampleRestored : List (Routine.Event Request (List GoString)) :=
  sampleSetup ++ alone sampleErasure 5 ++ alone (.restore ⟨lit "t", [sampleItem "y" "go"], [], lit "d"⟩) 1

def Result.erasure? : Result → Option ErasureReceipt
  | .erasure r => some r
  | _ => none

/-- An erasure of a scope erases an item while it is outside the scope, and an item of an erased scope is live again. -/
theorem fenced_erasure_exact_fails :
    (∃ r ∈ ((Routine.System.start (World.new 0)).run (routine sampleConfig) sampleMoved).returns,
      r.request = sampleErasure ∧ (r.result.erasure?.any fun e =>
        lit "x" ∈ e.itemIDs ∧ e.erasing.store.items.lookup (lit "x") = some sampleMovedItem ∧
          (Fence.scope sampleScope).covers sampleMovedItem = false) = true) ∧
    (∃ r ∈ ((Routine.System.start (World.new 0)).run (routine sampleConfig) sampleRestored).returns,
      r.request = sampleErasure ∧ r.result.erasure?.isSome = true) ∧
    ((Routine.System.start (World.new 0)).run (routine sampleConfig) sampleRestored).shared.store.live (lit "y") =
      some (sampleItem "y" "go") := by
  decide +kernel

/-- A put into the scope after the erasure. -/
def samplePutAfter : List (Routine.Event Request (List GoString)) := alone (.put (sampleItem "z" "go")) 1

theorem fenced_erasure_exact_put :
    ∃ r ∈ ((Routine.System.start (World.new 0)).run (routine sampleConfig)
        (sampleSetup ++ alone sampleErasure 5)).returns,
      r.request = sampleErasure ∧
      (∃ e, r.result.erasure? = some e ∧ e.itemIDs = [lit "x"] ∧ e.Exact (.scope sampleScope) r.seen) ∧
      ∀ id item, ((Routine.System.start (World.new 0)).run (routine sampleConfig)
        (sampleSetup ++ alone sampleErasure 5 ++ samplePutAfter)).shared.store.live id = some item →
        (Fence.scope sampleScope).covers item = false := by
  have hret : ∃ r ∈ ((Routine.System.start (World.new 0)).run (routine sampleConfig)
      (sampleSetup ++ alone sampleErasure 5)).returns,
      r.request = sampleErasure ∧ r.result.erasure?.map ErasureReceipt.itemIDs = some [lit "x"] := by
    decide +kernel
  obtain ⟨⟨q, result, seen⟩, hmem, rfl, hids⟩ := hret
  refine ⟨_, hmem, rfl, ?_⟩
  cases result with
  | erasure r =>
    obtain ⟨hexact, hclear⟩ := fenced_erasure_exact sampleConfig 0 (sampleSetup ++ alone sampleErasure 5) samplePutAfter
      (by decide +kernel) sampleErasure (.scope sampleScope) rfl r seen hmem
    exact ⟨⟨r, rfl, Option.some.inj hids, hexact⟩, hclear⟩
  | _ => cases hids

end CodeMemory.Orgscope
