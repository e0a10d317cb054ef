import CodeMemory.Hosted.ChunkFile
import CodeMemory.Hosted.Ingest

/-! The durable store of a brain. A flush is a list of file writes in a fixed
order: the generation, the chunk files, the sidecars and the index snapshot. A
crash leaves the disk after some of the writes of some flush. -/

namespace CodeMemory.Hosted

open Lib Lib.GoString Crawl

/-- `hotlex.gob`: the live chunks and the generation that it is labelled with. -/
structure Snapshot where
  generation : Nat
  live : Bag
  legacy : Bool

/-- The files of a brain. Sidecar files do not bear on chunks or the index. -/
structure Disk where
  generation : Option Nat
  base : Option GoString
  delta : Option GoString
  snapshot : Option Snapshot

def Disk.empty : Disk := ⟨none, none, none, none⟩

inductive Write where
  | generation (n : Nat)
  | base (raw : GoString)
  | removeDelta
  | appendDelta (raw : GoString)
  | sidecars
  | snapshot (live : Bag) (generation : Nat)

def Disk.write (d : Disk) : Write → Disk
  | .generation n => { d with generation := some n }
  | .base raw => { d with base := some raw }
  | .removeDelta => { d with delta := none }
  | .appendDelta raw => { d with delta := some (d.delta.getD [] ++ raw) }
  | .sidecars => d
  | .snapshot live generation => { d with snapshot := some ⟨generation, live, false⟩ }

def Disk.writeAll (d : Disk) (ws : List Write) : Disk := ws.foldl Disk.write d

def Disk.load (d : Disk) : Option Bag := loadChunks (d.base.getD []) (d.delta.getD [])

/-- `durableStore` with the index of its client. -/
structure Store where
  memory : Memory
  generation : Nat
  dirty : Finset GoString
  forceFullFlush : Bool
  hotDirty : Bool

/-- The writes of `writeFullChunksLocked` and the removal of the delta. -/
def fullWrites (bag : Bag) : List Write := [.base (encodeRows (rowsOf bag (GoMap.sortedKeys bag))), .removeDelta]

def Store.chunkWrites (s : Store) (d : Disk) : List Write :=
  let bag := s.memory.bag
  if s.forceFullFlush = true ∨ (d.base.getD [] = [] ∧ bag ≠ ∅) then fullWrites bag
  else if s.dirty = ∅ then []
  else
    let raw := encodeRows (rowsOf bag (sortedSet s.dirty))
    .appendDelta raw :: (if compactDeltaLines ≤ countJSONLLines (d.delta.getD [] ++ raw) then fullWrites bag else [])

/-- What `SaveGob` accepts: every text of a live chunk is valid UTF-8. -/
def snapshotOK (live : Bag) : Bool :=
  (GoMap.sortedKeys live).all (fun k => ((live.lookup k).map (fun c => decide (rowOf k c).Valid)).getD true)

/-- The index that a flush saves: a legacy snapshot of this generation gets the
dirty chunks added, and otherwise the index is built from the store. -/
def Store.flushedIndex (tc : Toolchain) (s : Store) (d : Disk) : Bag :=
  match d.snapshot with
  | some g =>
    if g.legacy = true ∧ g.generation = s.generation ∧ s.dirty ≠ ∅ ∧ s.dirty.card < 256 then
      (HotLex.addChunks tc ⟨g.live, false⟩ (rowsOf s.memory.bag (sortedSet s.dirty))).live
    else (buildHotLex tc s.memory.bag).live
  | none => (buildHotLex tc s.memory.bag).live

def Store.savesIndex (s : Store) (d : Disk) : Bool := s.hotDirty || d.snapshot.isNone

def Store.snapshotWrites (tc : Toolchain) (s : Store) (d : Disk) : List Write :=
  let live := s.flushedIndex tc d
  if s.savesIndex d = true ∧ snapshotOK live = true then [.snapshot live s.generation] else []

def Store.flushWrites (tc : Toolchain) (s : Store) (d : Disk) : List Write :=
  .generation s.generation :: (s.chunkWrites d ++ .sidecars :: s.snapshotWrites tc d)

def Store.flushed (tc : Toolchain) (s : Store) (d : Disk) : Store × Bool :=
  let flushed := { s with dirty := ∅, forceFullFlush := false }
  if s.savesIndex d = false then (flushed, true)
  else if snapshotOK (s.flushedIndex tc d) = true then ({ flushed with hotDirty := false }, true)
  else (flushed, false)

/-- A moment in a list of writes, and the generation of the store then. -/
structure CrashPoint where
  before : Disk
  written : List Write
  generation : Nat

def CrashPoint.disk (p : CrashPoint) : Disk := p.before.writeAll p.written

/-- A running client with its disk, and the points at which the present call could
have been cut off. -/
structure Session where
  store : Store
  disk : Disk
  points : List CrashPoint

namespace Session

variable (tc : Toolchain)

def issue (s : Session) (ws : List Write) : Session :=
  { s with
    disk := s.disk.writeAll ws
    points := s.points ++ ws.inits.map (fun written => ⟨s.disk, written, s.store.generation⟩) }

def flush (s : Session) : Session × Bool :=
  let r := s.store.flushed tc s.disk
  ({ s.issue (s.store.flushWrites tc s.disk) with store := r.1 }, r.2)

def setMemory (s : Session) (m : Memory) : Session := { s with store := { s.store with memory := m } }

/-- The memory after an upsert that is still to be flushed. -/
def marked (s : Session) (m : Memory) (chunks : List ChunkWrite) : Session :=
  { s with store := { s.store with
      memory := m
      dirty := s.store.dirty ∪ (chunks.map (fun ch => trimSpace ch.chunkID)).toFinset
      hotDirty := true } }

def bumpGeneration (s : Session) : Session :=
  { s with store := { s.store with generation := s.store.generation + 1 } }

/-- `Client.UpsertChunks`. An error leaves the chunks before the one with the error
in memory only. -/
def upsertChunks (s : Session) (chunks : List ChunkWrite) : Session :=
  match Hosted.upsertChunks s.store.memory.bag chunks with
  | (bag, some _) => s.setMemory { s.store.memory with bag := bag }
  | (bag, none) =>
    if chunks = [] then s
    else
      let (s, ok) := (s.marked { s.store.memory with bag := bag } chunks).flush tc
      if ok = true then s.setMemory (s.store.memory.ensureHotLex tc).1 else s

/-- `BurstUpsert` of chunks that are ready: one flush after all workers. -/
def burstUpsert (s : Session) (order : Interleaving) (chunks : List ChunkWrite) : Session × Bool :=
  (s.marked (s.store.memory.burstUpsert tc order chunks).1 chunks).flush tc

/-- `EnsureHotLexIncremental` with `flushHotLexFromClient`. -/
def indexDocuments (s : Session) (docs : List LocalDocument) : Session :=
  let r := s.store.memory.ensureHotLexIncremental tc docs
  let s := s.setMemory r.1.1
  if r.2 = true ∧ snapshotOK s.store.memory.hot.live = true then
    s.issue [.snapshot s.store.memory.hot.live s.store.generation]
  else s

/-- The flush after the generation is bumped, and that of the sidecars if they are
warmed at once. -/
def flushGeneration (s : Session) (warm : Bool) : Session :=
  let s := (s.bumpGeneration.flush tc).1
  if warm = true then (s.flush tc).1 else s

/-- `BurstIngestLocal` of the documents that the guard let through. -/
def burstIngestLocal (s : Session) (docs : List LocalDocument) (order : Interleaving) (warm : Bool) : Session :=
  if documentsToChunks docs = [] then s
  else
    let (s, ok) := s.burstUpsert tc order (documentsToChunks docs)
    if ok = false then s
    else
      let s := s.flushGeneration tc warm
      if s.store.memory.hot.len > 0 ∧ docs.length < 64 then s.indexDocuments tc docs else s

def continualDeltaLocal (s : Session) (docs : List LocalDocument) (warm : Bool) : Session :=
  let changed := changedChunks s.store.memory.bag (documentsToChunks docs)
  if changed = [] then s
  else
    let (s, ok) := s.burstUpsert tc .inOrder changed
    if ok = false then s else (s.flushGeneration tc warm).indexDocuments tc (deltaDocuments changed)

/-- `durableStore.DeleteDocuments`, and whether a chunk was removed. -/
def deleteDocuments (s : Session) (docIDs : Finset GoString) : Session × Bool :=
  let bag := Hosted.deleteDocuments s.store.memory.bag docIDs
  if bag = s.store.memory.bag then (s, false)
  else
    let store := { s.store with
      memory := { s.store.memory with bag := bag }
      dirty := ∅
      forceFullFlush := true
      hotDirty := true }
    (({ s with store := store }.flush tc).1, true)

/-- `PruneMissingDocuments`: the bumped generation is not flushed. -/
def pruneMissingDocuments (s : Session) (live : Finset GoString) : Session :=
  let missing := missingDocuments s.store.memory.bag live
  let (s, removed) := s.deleteDocuments tc missing
  if removed = false then s
  else
    let hot := (sortedSet missing).foldl HotLex.removeDocument s.store.memory.hot
    (s.setMemory { s.store.memory with hot := hot }).bumpGeneration

end Session

variable (tc : Toolchain)

/-- The index that `newLocalClient` installs. -/
def installedHot (bag : Bag) (generation : Nat) (d : Disk) : HotLex :=
  match d.snapshot with
  | some g =>
    if g.generation = generation ∧ g.live ≠ ∅ then ⟨g.live, !g.legacy⟩ else buildHotLex tc bag
  | none => buildHotLex tc bag

def Session.install (s : Session) : Session :=
  s.setMemory { s.store.memory with
    hot := installedHot tc s.store.memory.bag s.store.generation s.disk }

def Session.fresh (d : Disk) (bag : Bag) (generation : Nat) (force : Bool) : Session :=
  ⟨⟨⟨bag, ⟨∅, false⟩⟩, generation, ∅, force, force⟩, d, []⟩

/-- What an action leaves: the disk, the points at which it could have been cut off,
and the client if there is one. -/
structure Attempt where
  disk : Disk
  points : List CrashPoint
  running : Option Store

def Attempt.refused (d : Disk) : Attempt := ⟨d, [], none⟩

def Session.attempt (s : Session) : Attempt := ⟨s.disk, s.points, some s.store⟩

/-- The client of a store, unless the flush before failed. -/
def Session.opened (s : Session) (ok : Bool) : Attempt :=
  if ok = true then (s.install tc).attempt else { s.attempt with running := none }

def createLocal (d : Disk) : Attempt :=
  if d.generation.isSome = true then .refused d
  else
    let (s, ok) := (Session.fresh d ∅ 0 true).flush tc
    s.opened tc ok

def openLocal (d : Disk) : Attempt :=
  match d.load with
  | none => .refused d
  | some bag =>
    let s := Session.fresh d bag (d.generation.getD 0) false
    if d.generation.isSome = true then s.opened tc true
    else
      let (s, ok) := s.flush tc
      s.opened tc ok

inductive Call where
  | upsertChunks (chunks : List ChunkWrite)
  | burstIngestLocal (docs : List LocalDocument) (order : Interleaving) (warm : Bool)
  | continualDeltaLocal (docs : List LocalDocument) (warm : Bool)
  | pruneMissingDocuments (live : Finset GoString)
  | deleteDocuments (docIDs : Finset GoString)

def Call.run (s : Session) : Call → Session
  | .upsertChunks chunks => s.upsertChunks tc chunks
  | .burstIngestLocal docs order warm => s.burstIngestLocal tc docs order warm
  | .continualDeltaLocal docs warm => s.continualDeltaLocal tc docs warm
  | .pruneMissingDocuments live => s.pruneMissingDocuments tc live
  | .deleteDocuments docIDs => (s.deleteDocuments tc docIDs).1

inductive Action where
  | create
  | reopen
  | call (c : Call)

/-- The disk, and the client that is open on it. -/
structure Machine where
  disk : Disk
  running : Option Store

def Machine.start : Machine := ⟨.empty, none⟩

def Machine.attempt (m : Machine) : Action → Attempt
  | .create => createLocal tc m.disk
  | .reopen => openLocal tc m.disk
  | .call c =>
    match m.running with
    | none => .refused m.disk
    | some store => (c.run tc ⟨store, m.disk, []⟩).attempt

/-- An action that ends, or one that a crash cuts off at a point. -/
inductive Event where
  | completes (a : Action)
  | crashes (a : Action) (point : ℕ)

/-- A client that could not be opened leaves the one that was open before. -/
def Machine.step (m : Machine) : Event → Machine
  | .completes a =>
    let r := m.attempt tc a
    ⟨r.disk, r.running.or m.running⟩
  | .crashes a point =>
    let r := m.attempt tc a
    ⟨((r.points[point]?).map CrashPoint.disk).getD r.disk, none⟩

def Machine.run (m : Machine) (events : List Event) : Machine := events.foldl (Machine.step tc) m

end CodeMemory.Hosted
