import CodeMemory.Continual.Prune

/-! The polling loops `WatchDocs` and `WatchDocsMulti` with no limit on their
cycles. Every call that reads a folder sees the folder as it is at that moment, so
a visit carries what each of its calls sees. -/

namespace CodeMemory.Continual

open Lib Lib.GoString Hosted

/-- The stamp that was last acted on, and since when another one is seen. -/
structure StampState where
  last : Int64
  dirtySince : Option Int

/-- One visit of a folder: what `pathStamp`, `LoadDocuments` and, for several
folders, `liveDocIDsUnion` see, the two readings of the clock, and how a delta
ends. -/
structure Visit where
  stamped : Source
  now : Int
  since : Int
  loaded : Source
  union : List Source
  outcome : DeltaOutcome

def effectiveDebounce (debounce : Int) : Int := if debounce ≤ 0 then 300000000 else debounce

/-- What a tick makes of the stamp it sees, and whether it goes on to load. -/
def StampState.notice (s : StampState) (debounce : Int) (v : Visit) (stamp : Int64) : StampState × Bool :=
  if stamp = s.last then (s, false)
  else
    let dirtySince := s.dirtySince.getD v.now
    ({ s with dirtySince := some dirtySince }, !decide (v.since - dirtySince < effectiveDebounce debounce))

structure WatchState where
  stamp : StampState
  bag : Bag

section

variable (rd : Reader)

def watchBaseline (bag : Bag) (v : Visit) : WatchState :=
  match pathStamp rd v.stamped with
  | none => ⟨⟨0, none⟩, bag⟩
  | some stamp =>
    match loadDocuments rd v.loaded with
    | none => ⟨⟨stamp, none⟩, bag⟩
    | some docs => ⟨⟨stamp, none⟩, (applyWatchDelta bag docs v.outcome).1⟩

/-- One tick of `WatchDocs`. The stamp counts as seen whether or not the documents
could be loaded and stored. -/
def watchTick (debounce : Int) (w : WatchState) (v : Visit) : WatchState :=
  match pathStamp rd v.stamped with
  | none => w
  | some stamp =>
    match w.stamp.notice debounce v stamp with
    | (s, false) => { w with stamp := s }
    | (_, true) =>
      match loadDocuments rd v.loaded with
      | none => { w with stamp := ⟨stamp, none⟩ }
      | some docs => ⟨⟨stamp, none⟩, (applyWatchDelta w.bag docs v.outcome).1⟩

def watchRun (debounce : Int) (bag : Bag) (start : Visit) (ticks : List Visit) : WatchState :=
  ticks.foldl (watchTick rd debounce) (watchBaseline rd bag start)

def uniqueFrom (seen : List GoString) : List GoString → List GoString
  | [] => []
  | p :: rest =>
    if trimSpace p = [] ∨ trimSpace p ∈ seen then uniqueFrom seen rest
    else trimSpace p :: uniqueFrom (trimSpace p :: seen) rest

def uniqueNonEmpty (paths : List GoString) : List GoString := uniqueFrom [] paths

theorem nodup_uniqueFrom (seen paths : List GoString) :
    (uniqueFrom seen paths).Nodup ∧ ∀ p ∈ uniqueFrom seen paths, p ∉ seen := by
  induction paths generalizing seen with
  | nil => exact ⟨List.nodup_nil, fun p hp => by cases hp⟩
  | cons p rest ih =>
    unfold uniqueFrom
    split_ifs with hskip
    · exact ih seen
    · obtain ⟨hnodup, hnew⟩ := ih (trimSpace p :: seen)
      constructor
      · exact List.nodup_cons.mpr ⟨fun hmem => hnew _ hmem (.head _), hnodup⟩
      · intro q hq hseen
        rcases List.mem_cons.mp hq with rfl | hmem
        · exact hskip (.inr hseen)
        · exact hnew q hmem (.tail _ hseen)

theorem nodup_uniqueNonEmpty (paths : List GoString) : (uniqueNonEmpty paths).Nodup := (nodup_uniqueFrom [] paths).1

structure MultiState where
  stamps : GoString → StampState
  bag : Bag

def MultiState.set (m : MultiState) (p : GoString) (s : StampState) : MultiState :=
  { m with stamps := Function.update m.stamps p s }

/-- The baseline of one folder, which does not prune. -/
def multiBaselineVisit (m : MultiState) (p : GoString) (v : Visit) : MultiState :=
  match pathStamp rd v.stamped with
  | none => m.set p ⟨0, none⟩
  | some stamp =>
    let m := m.set p ⟨stamp, none⟩
    match loadDocuments rd v.loaded with
    | none => m
    | some docs => { m with bag := folderDelta m.bag docs v.outcome }

def multiBaseline (paths : List GoString) (bag : Bag) (visits : GoString → Visit)
    (union : List Source) : MultiState :=
  let m := paths.foldl (fun m p => multiBaselineVisit rd m p (visits p)) ⟨fun _ => ⟨0, none⟩, bag⟩
  { m with bag := unionPrune rd m.bag union }

/-- The part of a tick of `WatchDocsMulti` for one folder. -/
def multiVisit (debounce : Int) (m : MultiState) (p : GoString) (v : Visit) : MultiState :=
  match pathStamp rd v.stamped with
  | none => m
  | some stamp =>
    match (m.stamps p).notice debounce v stamp with
    | (s, false) => m.set p s
    | (_, true) =>
      let m := m.set p ⟨stamp, none⟩
      match loadDocuments rd v.loaded with
      | none => m
      | some docs => { m with bag := folderDelta (unionPrune rd m.bag v.union) docs v.outcome }

def multiTick (debounce : Int) (paths : List GoString) (m : MultiState) (visits : GoString → Visit) :
    MultiState :=
  paths.foldl (fun m p => multiVisit rd debounce m p (visits p)) m

def multiRun (debounce : Int) (paths : List GoString) (bag : Bag) (start : GoString → Visit)
    (union : List Source) (ticks : List (GoString → Visit)) : MultiState :=
  ticks.foldl (multiTick rd debounce paths) (multiBaseline rd paths bag start union)

end

section Shape

variable {rd : Reader} {debounce : Int} {bag : Bag}

section

variable (hbag : OfDocuments bag)
include hbag

theorem ofDocuments_continualDelta (docs : List LocalDocument) (outcome : DeltaOutcome) :
    OfDocuments (continualDelta bag docs outcome).1 := by
  rcases continualDelta_cases bag docs outcome with he | he
  · rwa [he]
  · rw [he]
    exact hbag.deltaChunks docs

theorem ofDocuments_applyWatchDelta (docs : List LocalDocument) (outcome : DeltaOutcome) :
    OfDocuments (applyWatchDelta bag docs outcome).1 := by
  unfold applyWatchDelta
  split_ifs
  · exact hbag.prune _
  · exact ofDocuments_continualDelta (hbag.prune _) docs outcome

theorem ofDocuments_folderDelta (docs : List LocalDocument) (outcome : DeltaOutcome) :
    OfDocuments (folderDelta bag docs outcome) := by
  unfold folderDelta
  split_ifs
  · exact hbag
  · exact ofDocuments_continualDelta hbag docs outcome

theorem ofDocuments_unionPrune (sources : List Source) :
    OfDocuments (unionPrune rd bag sources) := by
  unfold unionPrune
  split
  · exact hbag
  · exact hbag.prune _

theorem ofDocuments_watchBaseline (v : Visit) : OfDocuments (watchBaseline rd bag v).bag := by
  unfold watchBaseline
  split
  · exact hbag
  · split
    · exact hbag
    · exact ofDocuments_applyWatchDelta hbag _ _

end

theorem ofDocuments_watchTick {w : WatchState} (hbag : OfDocuments w.bag) (v : Visit) :
    OfDocuments (watchTick rd debounce w v).bag := by
  unfold watchTick
  split
  · exact hbag
  · split
    · exact hbag
    · split
      · exact hbag
      · exact ofDocuments_applyWatchDelta hbag _ _

theorem ofDocuments_watchRun (hbag : OfDocuments bag) (start : Visit) (ticks : List Visit) :
    OfDocuments (watchRun rd debounce bag start ticks).bag := by
  induction ticks using List.reverseRecOn with
  | nil => exact ofDocuments_watchBaseline hbag start
  | append_singleton ticks v ih =>
    rw [watchRun, List.foldl_append]
    exact ofDocuments_watchTick ih v

variable {m : MultiState}

theorem ofDocuments_multiBaselineVisit (hbag : OfDocuments m.bag) (p : GoString) (v : Visit) :
    OfDocuments (multiBaselineVisit rd m p v).bag := by
  unfold multiBaselineVisit
  split
  · exact hbag
  · split
    · exact hbag
    · exact ofDocuments_folderDelta hbag _ _

theorem ofDocuments_multiVisit (hbag : OfDocuments m.bag) (p : GoString) (v : Visit) :
    OfDocuments (multiVisit rd debounce m p v).bag := by
  unfold multiVisit
  split
  · exact hbag
  · split
    · exact hbag
    · split
      · exact hbag
      · exact ofDocuments_folderDelta (ofDocuments_unionPrune hbag _) _ _

variable {paths : List GoString}

theorem ofDocuments_multiTick (hbag : OfDocuments m.bag)
    (visits : GoString → Visit) : OfDocuments (multiTick rd debounce paths m visits).bag := by
  induction paths generalizing m with
  | nil => exact hbag
  | cons p rest ih => exact ih (ofDocuments_multiVisit hbag p (visits p))

theorem ofDocuments_multiBaseline (hbag : OfDocuments bag) (visits : GoString → Visit)
    (union : List Source) : OfDocuments (multiBaseline rd paths bag visits union).bag := by
  apply ofDocuments_unionPrune
  have hfold : ∀ (paths : List GoString) (m : MultiState), OfDocuments m.bag →
      OfDocuments (paths.foldl (fun m p => multiBaselineVisit rd m p (visits p)) m).bag := by
    intro paths
    induction paths with
    | nil => exact fun _ hm => hm
    | cons p rest ih => exact fun m hm => ih _ (ofDocuments_multiBaselineVisit hm p (visits p))
  exact hfold paths _ hbag

theorem ofDocuments_multiRun (hbag : OfDocuments bag) (start : GoString → Visit)
    (union : List Source) (ticks : List (GoString → Visit)) :
    OfDocuments (multiRun rd debounce paths bag start union ticks).bag := by
  induction ticks using List.reverseRecOn with
  | nil => exact ofDocuments_multiBaseline hbag start union
  | append_singleton ticks visits ih =>
    rw [multiRun, List.foldl_append]
    exact ofDocuments_multiTick ih visits

end Shape

end CodeMemory.Continual
