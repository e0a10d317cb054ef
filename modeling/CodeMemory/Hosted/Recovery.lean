import CodeMemory.Hosted.Durable

/-! What a brain is after a crash. The chunk files always hold some corpus. The
snapshot is trusted on its generation alone, so it has to be the index of that
corpus whenever it carries the generation of the metadata file. -/

namespace CodeMemory.Hosted

open Lib Lib.GoString Crawl Lib.GoMap List

variable {tc : Toolchain} {bag : Bag} {rows : List ChunkWrite} {s : Store} {d : Disk} {ws : List Write}

/-- A chunk that is stored as it is, that both kinds of file can hold, and that has
a token. -/
structure ChunkWrite.Proper (tc : Toolchain) (ch : ChunkWrite) : Prop where
  ready : ch.Ready
  valid : ch.Valid
  token : hotTokenize tc ch.text ≠ []

def ProperBag (tc : Toolchain) (bag : Bag) : Prop := ∀ k c, bag.lookup k = some c → (rowOf k c).Proper tc

theorem properBag_putChunks (hbag : ProperBag tc bag)
    (h : ∀ ch ∈ rows, ch.Proper tc) : ProperBag tc (putChunks bag rows) := by
  intro k c hc
  rcases lookup_putChunks_cases hc with hold | ⟨ch, hch, rfl, rfl⟩
  · exact hbag k c hold
  · exact h ch hch

theorem properBag_empty : ProperBag tc ∅ := by
  intro k c hc
  simp at hc

section

variable (hbag : ProperBag tc bag)
include hbag

theorem ProperBag.rowsOf (ids : List GoString) : ∀ ch ∈ rowsOf bag ids, ch.Proper tc := by
  intro ch hch
  exact hbag ch.chunkID _ (mem_rowsOf.mp hch).2

/-- Every chunk of a proper bag is indexed. -/
theorem ProperBag.liveChunks_eq : liveChunks tc bag = bag := by
  apply Finmap.ext_lookup
  intro k
  rw [lookup_liveChunks]
  cases hc : bag.lookup k with
  | none => rfl
  | some c =>
    have hrow := hbag k c hc
    obtain ⟨hid, htext⟩ := hrow.ready.not_blank
    have htoken : hotTokenize tc c.text ≠ [] := hrow.token
    have hindexed : indexable tc k c = true := by
      simp only [indexable, Bool.and_eq_true, decide_eq_true_eq]
      exact ⟨⟨hid, htext⟩, htoken⟩
    rw [Option.filter_some, if_pos hindexed]

theorem ProperBag.snapshotOK : snapshotOK bag = true := by
  rw [Hosted.snapshotOK, all_eq_true]
  intro k hk
  obtain ⟨c, hc⟩ := mem_keys_iff.mp (mem_sortedKeys.mp hk)
  rw [hc]
  exact decide_eq_true (hbag k c hc).valid

end

/-- The chunk files are rows, and the rows give the bag. -/
def Disk.Holds (tc : Toolchain) (d : Disk) (bag : Bag) : Prop :=
  ∃ base delta : List ChunkWrite, (∀ ch ∈ base ++ delta, ch.Proper tc) ∧
    d.base.getD [] = encodeRows base ∧ d.delta.getD [] = encodeRows delta ∧ bag = putChunks ∅ (base ++ delta)

theorem Disk.Holds.proper (h : d.Holds tc bag) : ProperBag tc bag := by
  obtain ⟨base, delta, hrows, -, -, rfl⟩ := h
  exact properBag_putChunks properBag_empty hrows

/-- What `load` reads is what the files hold. -/
theorem Disk.Holds.load {loaded : Bag} (h : d.Holds tc bag) (hload : d.load = some loaded) : loaded = bag := by
  obtain ⟨base, delta, hrows, hbase, hdelta, rfl⟩ := h
  rw [Disk.load, hbase, hdelta] at hload
  exact loadChunks_encodeRows (fun ch hch => ⟨(hrows ch hch).ready, (hrows ch hch).valid⟩) hload

theorem writeAll_append (d : Disk) (a b : List Write) : d.writeAll (a ++ b) = (d.writeAll a).writeAll b :=
  foldl_append

def Write.isChunk : Write → Bool
  | .base _ | .removeDelta | .appendDelta _ => true
  | _ => false

def Write.isSnapshot : Write → Bool
  | .snapshot _ _ => true
  | _ => false

def Write.isGeneration : Write → Bool
  | .generation _ => true
  | _ => false

/-- What is written to a chunk file is rows of proper chunks. -/
def Write.Proper (tc : Toolchain) : Write → Prop
  | .base raw | .appendDelta raw => ∃ rows, (∀ ch ∈ rows, ChunkWrite.Proper tc ch) ∧ raw = encodeRows rows
  | _ => True

theorem writeAll_keeps {α : Type} (f : Disk → α) {p : Write → Bool} (hp : ∀ d w, p w = false → f (d.write w) = f d)
    (h : ∀ w ∈ ws, p w = false) : f (d.writeAll ws) = f d :=
  List.foldlRecOn (motive := fun d' => f d' = f d) ws Disk.write rfl fun _ hd w hw => (hp _ w (h w hw)).trans hd

theorem generation_writeAll (h : ∀ w ∈ ws, w.isGeneration = false) : (d.writeAll ws).generation = d.generation :=
  writeAll_keeps Disk.generation (fun _ w hw => by cases w <;> first | rfl | cases hw) h

theorem snapshot_writeAll (h : ∀ w ∈ ws, w.isSnapshot = false) : (d.writeAll ws).snapshot = d.snapshot :=
  writeAll_keeps Disk.snapshot (fun _ w hw => by cases w <;> first | rfl | cases hw) h

/-- A write to another file leaves what the chunk files hold. -/
theorem Disk.Holds.frame (h : d.Holds tc bag) (hws : ∀ w ∈ ws, w.isChunk = false) : (d.writeAll ws).Holds tc bag := by
  refine List.foldlRecOn (motive := (Disk.Holds tc · bag)) ws _ h fun d hd w hmem => ?_
  have hw := hws w hmem
  cases w <;> first | exact hd | cases hw

/-- Rows that are appended are put on top of what the files hold. -/
theorem Disk.Holds.append (h : d.Holds tc bag) (hrows : ∀ ch ∈ rows, ch.Proper tc) :
    (d.write (.appendDelta (encodeRows rows))).Holds tc (putChunks bag rows) := by
  obtain ⟨base, delta, hprop, hbase, hdelta, rfl⟩ := h
  refine ⟨base, delta ++ rows, ?_, hbase, ?_, ?_⟩
  · rw [← append_assoc]
    exact forall_mem_append.mpr ⟨hprop, hrows⟩
  · show d.delta.getD [] ++ encodeRows rows = _
    rw [hdelta, encodeRows_append]
  · rw [← append_assoc, putChunks_append _ (base ++ delta)]

/-- After any write the chunk files hold some corpus. -/
theorem Disk.Holds.write (h : d.Holds tc bag) {w : Write} (hw : w.Proper tc) : ∃ bag, (d.write w).Holds tc bag := by
  cases w with
  | generation n | sidecars | snapshot live generation => exact ⟨bag, h⟩
  | base raw =>
    obtain ⟨rows, hrows, rfl⟩ := hw
    obtain ⟨base, delta, hprop, -, hdelta, -⟩ := h
    exact ⟨_, rows, delta, forall_mem_append.mpr ⟨hrows, (forall_mem_append.mp hprop).2⟩, rfl, hdelta, rfl⟩
  | removeDelta =>
    obtain ⟨base, delta, hprop, hbase, -, -⟩ := h
    refine ⟨_, base, [], ?_, hbase, rfl, rfl⟩
    rw [append_nil]
    exact (forall_mem_append.mp hprop).1
  | appendDelta raw =>
    obtain ⟨rows, hrows, rfl⟩ := hw
    exact ⟨_, h.append hrows⟩

theorem Disk.Holds.writeAll (h : d.Holds tc bag)
    (hws : ∀ w ∈ ws, w.Proper tc) : ∃ bag, (d.writeAll ws).Holds tc bag := by
  induction ws generalizing d bag with
  | nil => exact ⟨bag, h⟩
  | cons w ws ih =>
    obtain ⟨next, hnext⟩ := h.write (hws w (.head _))
    exact ih hnext (fun v hv => hws v (mem_cons_of_mem w hv))

/-- A snapshot that the metadata file vouches for is the index of the bag. -/
def Disk.Trusts (tc : Toolchain) (d : Disk) (bag : Bag) : Prop :=
  ∀ g, d.snapshot = some g → g.legacy = false ∧ ∃ m, d.generation = some m ∧ g.generation ≤ m ∧
    (g.generation = m → g.live ≠ ∅ → g.live = liveChunks tc bag)

def Disk.Consistent (tc : Toolchain) (d : Disk) : Prop := ∃ bag, d.Holds tc bag ∧ d.Trusts tc bag

theorem consistent_empty : Disk.empty.Consistent tc := by
  refine ⟨∅, ⟨[], [], ?_, rfl, rfl, rfl⟩, ?_⟩
  · intro ch hch
    cases hch
  · intro g hg
    cases hg

/-- The index that a client installs is that of its bag. -/
theorem installedHot_live {n : ℕ} (h : d.Trusts tc bag) (hn : d.generation = some n) :
    (installedHot tc bag n d).live = liveChunks tc bag := by
  unfold installedHot
  cases hs : d.snapshot with
  | none => rfl
  | some g =>
    dsimp only
    split_ifs with hg
    · obtain ⟨-, m, hm, -, heq⟩ := h g hs
      obtain rfl := Option.some.inj (hn.symm.trans hm)
      exact heq hg.1 hg.2
    · rfl

/-- A crash at this point leaves changed chunk files under a snapshot that still
carries the generation. -/
def CrashPoint.exposed (p : CrashPoint) : Bool :=
  p.written.any Write.isChunk && !p.written.any Write.isSnapshot &&
    p.before.snapshot.any (fun g => g.generation == p.generation && decide (g.live ≠ ∅))

/-- What is known when a flush begins; the chunk files hold `old`. -/
structure Store.Pending (tc : Toolchain) (s : Store) (d : Disk) (old : Bag) : Prop where
  proper : ProperBag tc s.memory.bag
  holds : d.Holds tc old
  trusts : d.Trusts tc old
  outside : s.forceFullFlush = false → ∀ k, k ∉ s.dirty → s.memory.bag.lookup k = old.lookup k
  stored : ∀ k ∈ s.dirty, k ∈ s.memory.bag.keys
  same : s.hotDirty = false → s.memory.bag = old
  behind : ∀ m, d.generation = some m → m ≤ s.generation

/-- What is known between two calls. -/
structure Store.Settled (tc : Toolchain) (s : Store) (d : Disk) : Prop where
  holds : d.Holds tc s.memory.bag
  trusts : d.Trusts tc s.memory.bag
  dirty : s.dirty = ∅
  unforced : s.forceFullFlush = false
  saved : s.hotDirty = false
  behind : ∃ m, d.generation = some m ∧ m ≤ s.generation

theorem Store.Settled.pending (h : s.Settled tc d) : s.Pending tc d s.memory.bag where
  proper := h.holds.proper
  holds := h.holds
  trusts := h.trusts
  outside := fun _ _ _ => rfl
  stored := by
    intro k hk
    rw [h.dirty] at hk
    cases hk
  same := fun _ => rfl
  behind := by
    intro m hm
    obtain ⟨m', hm', hle⟩ := h.behind
    rw [hm] at hm'
    exact Option.some.inj hm' ▸ hle

theorem Store.Settled.consistent (h : s.Settled tc d) : d.Consistent tc :=
  ⟨_, h.holds, h.trusts⟩

section Flush

variable {old : Bag} {w : Write}

/-- A full rewrite leaves exactly the bag. -/
theorem holds_fullWrites {bag : Bag} (hbag : ProperBag tc bag) (d : Disk) :
    (d.writeAll (fullWrites bag)).Holds tc bag := by
  refine ⟨rowsOf bag (sortedKeys bag), [], ?_, rfl, rfl, ?_⟩
  · rw [append_nil]
    exact hbag.rowsOf _
  · rw [append_nil, putChunks_rowsOf_sortedKeys]

/-- Appending the dirty rows brings the files up to date. -/
theorem Store.Pending.holds_append (h : s.Pending tc d old) (hforce : s.forceFullFlush = false) :
    (d.write (.appendDelta (encodeRows (rowsOf s.memory.bag (sortedSet s.dirty))))).Holds tc s.memory.bag := by
  have hbag : putChunks old (rowsOf s.memory.bag (sortedSet s.dirty)) = s.memory.bag := by
    apply Finmap.ext_lookup
    intro k
    rw [lookup_putChunks_rowsOf]
    by_cases hk : k ∈ s.dirty
    · rw [if_pos ⟨mem_sortedSet.mpr hk, h.stored k hk⟩]
    · rw [if_neg (fun hmem => hk (mem_sortedSet.mp hmem.1)), h.outside hforce k hk]
  have happend := h.holds.append (h.proper.rowsOf (sortedSet s.dirty))
  rwa [hbag] at happend

theorem Store.Pending.holds_chunkWrites (h : s.Pending tc d old) :
    (d.writeAll (s.chunkWrites d)).Holds tc s.memory.bag := by
  unfold Store.chunkWrites
  dsimp only
  split_ifs with hfull hclean hcompact
  · exact holds_fullWrites h.proper d
  · have hforce : s.forceFullFlush = false := Bool.eq_false_iff.mpr (fun ht => hfull (.inl ht))
    have hsame : s.memory.bag = old := by
      apply Finmap.ext_lookup
      intro k
      exact h.outside hforce k (hclean ▸ Finset.notMem_empty k)
    rw [hsame]
    exact h.holds
  · exact holds_fullWrites h.proper _
  · exact h.holds_append (Bool.eq_false_iff.mpr (fun ht => hfull (.inl ht)))

theorem mem_fullWrites {bag : Bag} (hbag : ProperBag tc bag) (hw : w ∈ fullWrites bag) :
    w.Proper tc ∧ w.isGeneration = false ∧ w.isSnapshot = false := by
  simp only [fullWrites, mem_cons, not_mem_nil, or_false] at hw
  rcases hw with rfl | rfl
  · exact ⟨⟨_, hbag.rowsOf _, rfl⟩, rfl, rfl⟩
  · exact ⟨trivial, rfl, rfl⟩

theorem mem_chunkWrites (hbag : ProperBag tc s.memory.bag) (hw : w ∈ s.chunkWrites d) :
    w.Proper tc ∧ w.isGeneration = false ∧ w.isSnapshot = false := by
  unfold Store.chunkWrites at hw
  dsimp only at hw
  split_ifs at hw with hfull hclean hcompact
  · exact mem_fullWrites hbag hw
  · cases hw
  · rcases mem_cons.mp hw with rfl | hw
    · exact ⟨⟨_, hbag.rowsOf _, rfl⟩, rfl, rfl⟩
    · exact mem_fullWrites hbag hw
  · obtain rfl := mem_singleton.mp hw
    exact ⟨⟨_, hbag.rowsOf _, rfl⟩, rfl, rfl⟩

section

variable (h : s.Pending tc d old)
include h

/-- No snapshot of this store's own is a legacy one, so the index is built anew. -/
theorem Store.Pending.flushedIndex_eq :
    s.flushedIndex tc d = liveChunks tc s.memory.bag := by
  unfold Store.flushedIndex
  cases hs : d.snapshot with
  | none => rfl
  | some g =>
    have hlegacy := (h.trusts g hs).1
    dsimp only
    rw [if_neg (fun hg => by rw [hlegacy] at hg; cases hg.1)]
    rfl

theorem Store.Pending.snapshotOK : snapshotOK (s.flushedIndex tc d) = true := by
  rw [h.flushedIndex_eq, h.proper.liveChunks_eq]
  exact h.proper.snapshotOK

theorem Store.Pending.snapshotWrites_eq :
    s.snapshotWrites tc d =
      if s.savesIndex d = true then [.snapshot (liveChunks tc s.memory.bag) s.generation] else [] := by
  have hok := h.snapshotOK
  rw [h.flushedIndex_eq] at hok
  simp only [Store.snapshotWrites, h.flushedIndex_eq, hok, and_true]

end

theorem mem_snapshotWrites (hw : w ∈ s.snapshotWrites tc d) : w.isChunk = false ∧ w.isGeneration = false := by
  unfold Store.snapshotWrites at hw
  dsimp only at hw
  split_ifs at hw
  · obtain rfl := mem_singleton.mp hw
    exact ⟨rfl, rfl⟩
  · cases hw

/-- The writes of a flush before the snapshot. -/
def Store.earlyWrites (s : Store) (d : Disk) : List Write :=
  .generation s.generation :: (s.chunkWrites d ++ [.sidecars])

theorem flushWrites_eq (tc : Toolchain) (s : Store) (d : Disk) :
    s.flushWrites tc d = s.earlyWrites d ++ s.snapshotWrites tc d := by
  simp [Store.flushWrites, Store.earlyWrites]

theorem mem_earlyWrites (hbag : ProperBag tc s.memory.bag) (hw : w ∈ s.earlyWrites d) :
    w.Proper tc ∧ w.isSnapshot = false := by
  rcases mem_cons.mp hw with rfl | hw
  · exact ⟨trivial, rfl⟩
  rcases mem_append.mp hw with hw | hw
  · exact ⟨(mem_chunkWrites hbag hw).1, (mem_chunkWrites hbag hw).2.2⟩
  · obtain rfl := mem_singleton.mp hw
    exact ⟨trivial, rfl⟩

/-- The generation is the first thing that a flush writes. -/
theorem generation_early (hbag : ProperBag tc s.memory.bag) (hws : ws <+: s.earlyWrites d)
    (hne : ws ≠ []) : (d.writeAll ws).generation = some s.generation := by
  cases ws with
  | nil => exact absurd rfl hne
  | cons w rest =>
    obtain ⟨rfl, hrest⟩ := cons_prefix_cons.mp hws
    show ((d.write _).writeAll rest).generation = _
    apply generation_writeAll
    intro v hv
    rcases mem_append.mp (hrest.subset hv) with hv | hv
    · exact (mem_chunkWrites hbag hv).2.1
    · obtain rfl := mem_singleton.mp hv
      rfl

theorem earlyWrites_ne_nil (s : Store) (d : Disk) : s.earlyWrites d ≠ [] := cons_ne_nil _ _

theorem snapshot_early (hbag : ProperBag tc s.memory.bag) (hws : ws <+: s.earlyWrites d) :
    (d.writeAll ws).snapshot = d.snapshot :=
  snapshot_writeAll (fun _ hw => (mem_earlyWrites hbag (hws.subset hw)).2)

section

variable (h : s.Pending tc d old)
include h

/-- Only a snapshot of the store's generation can be vouched for once it is written. -/
theorem Store.Pending.writeGeneration :
    s.Pending tc (d.write (.generation s.generation)) old where
  proper := h.proper
  holds := h.holds
  trusts := by
    intro g hg
    obtain ⟨hlegacy, m, hm, hle, heq⟩ := h.trusts g hg
    have hbehind := h.behind m hm
    refine ⟨hlegacy, s.generation, rfl, by omega, ?_⟩
    intro hsame
    exact heq (by omega)
  outside := h.outside
  stored := h.stored
  same := h.same
  behind := by
    intro m hm
    exact (Option.some.inj hm).ge

theorem Store.Pending.holds_earlyWrites :
    (d.writeAll (s.earlyWrites d)).Holds tc s.memory.bag := by
  have hchunks : ((d.write (.generation s.generation)).writeAll (s.chunkWrites d)).Holds tc s.memory.bag :=
    h.writeGeneration.holds_chunkWrites
  have hsplit : d.writeAll (s.earlyWrites d) =
      ((d.write (.generation s.generation)).writeAll (s.chunkWrites d)).writeAll [.sidecars] :=
    writeAll_append _ _ _
  rw [hsplit]
  apply hchunks.frame
  intro w hw
  obtain rfl := mem_singleton.mp hw
  rfl

/-- After a whole flush the files are those of the bag. -/
theorem Store.Pending.trusts_flushWrites :
    (d.writeAll (s.flushWrites tc d)).Trusts tc s.memory.bag := by
  have hgen := generation_early h.proper prefix_rfl (earlyWrites_ne_nil s d)
  have hsnap := snapshot_early h.proper (prefix_rfl : s.earlyWrites d <+: _)
  rw [flushWrites_eq, h.snapshotWrites_eq, writeAll_append]
  split_ifs with hsaves
  · intro g hg
    cases hg
    exact ⟨rfl, s.generation, hgen, le_rfl, fun _ _ => rfl⟩
  · have hclean : s.hotDirty = false := by
      rw [Store.savesIndex, Bool.or_eq_true, not_or] at hsaves
      exact Bool.eq_false_iff.mpr hsaves.1
    intro g hg
    obtain ⟨hlegacy, m, hm, hrest⟩ := h.writeGeneration.trusts g (hsnap ▸ hg)
    cases hm
    rw [h.same hclean]
    exact ⟨hlegacy, s.generation, hgen, hrest⟩

theorem Store.Pending.holds_flushWrites :
    (d.writeAll (s.flushWrites tc d)).Holds tc s.memory.bag := by
  rw [flushWrites_eq, writeAll_append]
  exact h.holds_earlyWrites.frame fun _ hw => (mem_snapshotWrites hw).1

theorem Store.Pending.generation_flushWrites :
    (d.writeAll (s.flushWrites tc d)).generation = some s.generation := by
  rw [flushWrites_eq, writeAll_append]
  exact (generation_writeAll fun _ hw => (mem_snapshotWrites hw).2).trans
    (generation_early h.proper prefix_rfl (earlyWrites_ne_nil s d))

/-- A flush of proper chunks succeeds, and leaves nothing to be flushed. -/
theorem Store.Pending.flushed :
    s.flushed tc d = ({ s with dirty := ∅, forceFullFlush := false, hotDirty := false }, true) := by
  unfold Store.flushed
  dsimp only
  rw [h.snapshotOK, if_pos rfl]
  split_ifs with hsaves
  · rw [Store.savesIndex, Bool.or_eq_false_iff] at hsaves
    rw [hsaves.1]
  · rfl

/-- A crash before the snapshot is written. -/
theorem Store.Pending.consistent_early (hws : ws <+: s.earlyWrites d)
    (hexp : CrashPoint.exposed ⟨d, ws, s.generation⟩ = false) : (d.writeAll ws).Consistent tc := by
  by_cases hne : ws = []
  · rw [hne]
    exact ⟨old, h.holds, h.trusts⟩
  have hgen := generation_early h.proper hws hne
  have hsnap := snapshot_early h.proper hws
  by_cases hchunk : ws.any Write.isChunk = true
  · -- the snapshot does not carry the generation, whatever the files hold now
    obtain ⟨bag, hbag⟩ := h.holds.writeAll (fun w hw => (mem_earlyWrites h.proper (hws.subset hw)).1)
    refine ⟨bag, hbag, ?_⟩
    intro g hg
    rw [hsnap] at hg
    obtain ⟨hlegacy, m, hm, hle, -⟩ := h.writeGeneration.trusts g hg
    cases hm
    refine ⟨hlegacy, s.generation, hgen, hle, ?_⟩
    intro hsame hlive
    have hnone : ws.any Write.isSnapshot = false := by
      rw [any_eq_false]
      intro w hw
      rw [(mem_earlyWrites h.proper (hws.subset hw)).2]
      exact Bool.false_ne_true
    simp [CrashPoint.exposed, hchunk, hnone, hg, hsame, hlive] at hexp
  · have hfiles : ∀ w ∈ ws, w.isChunk = false := by
      intro w hw
      exact Bool.eq_false_iff.mpr (fun ht => hchunk (any_eq_true.mpr ⟨w, hw, ht⟩))
    refine ⟨old, h.holds.frame hfiles, ?_⟩
    intro g hg
    rw [hsnap] at hg
    obtain ⟨hlegacy, m, hm, hrest⟩ := h.writeGeneration.trusts g hg
    cases hm
    exact ⟨hlegacy, s.generation, hgen, hrest⟩

/-- A crash anywhere in a flush, unless it is exposed. -/
theorem Store.Pending.consistent_cut
    (hws : ws <+: s.flushWrites tc d) (hexp : CrashPoint.exposed ⟨d, ws, s.generation⟩ = false) :
    (d.writeAll ws).Consistent tc := by
  have hwhole : (d.writeAll (s.flushWrites tc d)).Consistent tc := ⟨_, h.holds_flushWrites, h.trusts_flushWrites⟩
  rw [flushWrites_eq, h.snapshotWrites_eq] at hws hwhole
  split_ifs at hws hwhole
  · rcases prefix_concat_iff.mp hws with rfl | hearly
    · exact hwhole
    · exact h.consistent_early hearly hexp
  · rw [append_nil] at hws
    exact h.consistent_early hws hexp

end

end Flush

/-- A client between two calls, all of whose crash points so far are harmless. -/
structure Session.Sound (tc : Toolchain) (s : Session) : Prop where
  settled : s.store.Settled tc s.disk
  points : ∀ p ∈ s.points, p.exposed = false → p.disk.Consistent tc

namespace Session

variable {s : Session}

theorem mem_points_issue {ws : List Write} {p : CrashPoint} (hp : p ∈ (s.issue ws).points) :
    p ∈ s.points ∨ ∃ written, written <+: ws ∧ p = ⟨s.disk, written, s.store.generation⟩ := by
  rcases mem_append.mp hp with hold | hnew
  · exact .inl hold
  · obtain ⟨written, hw, rfl⟩ := mem_map.mp hnew
    exact .inr ⟨written, (mem_inits _ _).mp hw, rfl⟩

/-- A flush settles the store. -/
theorem sound_flush {old : Bag} (hpoints : ∀ p ∈ s.points, p.exposed = false → p.disk.Consistent tc)
    (h : s.store.Pending tc s.disk old) :
    (s.flush tc).1.Sound tc ∧ (s.flush tc).2 = true ∧ (s.flush tc).1.store.memory = s.store.memory ∧
      (s.flush tc).1.disk.generation = some (s.flush tc).1.store.generation := by
  have hstore : (s.flush tc).1.store =
      { s.store with dirty := ∅, forceFullFlush := false, hotDirty := false } := by
    show (s.store.flushed tc s.disk).1 = _
    rw [h.flushed]
  have hdisk : (s.flush tc).1.disk = s.disk.writeAll (s.store.flushWrites tc s.disk) := rfl
  refine ⟨⟨?_, ?_⟩, ?_, ?_, ?_⟩
  · rw [hstore, hdisk]
    exact ⟨h.holds_flushWrites, h.trusts_flushWrites, rfl, rfl, rfl, _, h.generation_flushWrites, le_rfl⟩
  · intro p hp hexp
    rcases mem_points_issue hp with hold | ⟨written, hw, rfl⟩
    · exact hpoints p hold hexp
    · exact h.consistent_cut hw hexp
  · show (s.store.flushed tc s.disk).2 = true
    rw [h.flushed]
  · rw [hstore]
  · rw [hstore, hdisk]
    exact h.generation_flushWrites

theorem Sound.setHot (h : s.Sound tc) (hot : HotLex) :
    (s.setMemory { s.store.memory with hot := hot }).Sound tc :=
  ⟨⟨h.settled.holds, h.settled.trusts, h.settled.dirty, h.settled.unforced, h.settled.saved, h.settled.behind⟩,
    h.points⟩

theorem Sound.bumpGeneration (h : s.Sound tc) : s.bumpGeneration.Sound tc := by
  refine ⟨⟨h.settled.holds, h.settled.trusts, h.settled.dirty, h.settled.unforced, h.settled.saved, ?_⟩, h.points⟩
  obtain ⟨m, hm, hle⟩ := h.settled.behind
  exact ⟨m, hm, Nat.le_succ_of_le hle⟩

end Session

end CodeMemory.Hosted
