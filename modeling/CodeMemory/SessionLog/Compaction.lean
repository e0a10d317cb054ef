import CodeMemory.Lib.Chain
import CodeMemory.SessionLog.Log

/-! What a compaction notes of the events it folds. Once the log is full, every append
folds the two oldest events, and from the second time on the older of the two is itself
a compaction event. A fold notes how many events it was made from, not how many those
stand for, so its note accounts for every event ever appended only until the second fold. -/

namespace CodeMemory.SessionLog

open Lib Lib.GoString Lib.Result List

def Log.fresh (limit : Limit) : Log := ⟨⟨limit, []⟩, .missing⟩

namespace Runtime

variable {rt : Runtime} {limit : Limit}

/-- The calls one after the other, as long as they succeed, with the events they return. -/
def appendAll (log : Log) : List rt.Call → Except LogError (List Event × Log)
  | [] => .ok ([], log)
  | c :: calls => do
    let first ← rt.append log c.event c.now c.disk
    let rest ← appendAll first.2 calls
    .ok (first.1 :: rest.1, rest.2)

theorem appendAll_keeps {P : List rt.Call → List Event → Prop} {Q : rt.Call → Prop}
    (hstep : ∀ done events (c : rt.Call), c.event.sanitize.FieldsOk → Q c → P done events →
      P (done ++ [c]) (rt.nextEvents limit events c.event.sanitize c.now))
    {done calls : List rt.Call} {log log' : Log} {sealed : List Event} (hlimit : log.writer.limit = limit)
    (h : appendAll log calls = .ok (sealed, log')) (hQ : ∀ c ∈ calls, Q c) (hP : P done log.writer.events) :
    P (done ++ calls) log'.writer.events := by
  induction calls generalizing done log sealed with
  | nil =>
    cases h
    rwa [append_nil]
  | cons c calls ih =>
    obtain ⟨⟨first, after⟩, hfirst, h⟩ := bind_eq_ok_iff.mp h
    obtain ⟨⟨rest, last⟩, hrest, h⟩ := bind_eq_ok_iff.mp h
    cases h
    obtain ⟨hfs, raw, -, rfl⟩ := append_ok hfirst
    rw [← singleton_append, ← append_assoc]
    rw [forall_mem_cons] at hQ
    have hnext := hstep done _ c hfs hQ.1 hP
    rw [← hlimit] at hnext
    refine ih ?_ hrest hQ.2 hnext
    exact hlimit

/-- An append to a log that is not full adds its event; one to a full log of two events or more folds the two oldest. -/
theorem nextEvents_cases (hmax : 2 ≤ limit.maxEvents) {events : List Event} (hlen : events.length ≤ limit.maxEvents)
    (ev : Event) (now : GoString) :
    (events.length < limit.maxEvents ∧
      rt.nextEvents limit events ev now = events ++ [rt.sealEvent (UInt64.ofNat (events.length + 1)) now ev]) ∨
    ∃ a b rest, events = a :: b :: rest ∧ events.length = limit.maxEvents ∧
      rt.nextEvents limit events ev now = rt.renumber (rt.compactionFrom [a, b] now ev.session ::
        (rest ++ [rt.sealEvent (UInt64.ofNat (events.length + 1)) now ev])) := by
  rcases Nat.lt_or_eq_of_le hlen with hlt | hfull
  · refine .inl ⟨hlt, ?_⟩
    rw [nextEvents, if_neg]
    simpa using hlt
  · obtain ⟨a, b, rest, rfl⟩ : ∃ a b rest, events = a :: b :: rest := by
      rcases events with - | ⟨a, - | ⟨b, rest⟩⟩
      · simp only [length_nil] at hfull
        omega
      · simp only [length_singleton] at hfull
        omega
      · exact ⟨a, b, rest, rfl⟩
    refine .inr ⟨a, b, rest, rfl, hfull, ?_⟩
    generalize hlast : rt.sealEvent (UInt64.ofNat ((a :: b :: rest).length + 1)) now ev = last
    have hlength : (a :: b :: rest ++ [last]).length = limit.maxEvents + 1 := by
      rw [length_append, hfull, length_singleton]
    have hover : (a :: b :: rest ++ [last]).length - limit.maxEvents + 1 = 2 := by omega
    simp only [nextEvents]
    rw [hlast, if_pos (by omega), hover]
    rfl

theorem getElem?_renumber (events : List Event) (i : ℕ) :
    (rt.renumber events)[i]? = events[i]?.map fun e =>
      { e with seq := UInt64.ofNat (i + 1), id := rt.eventID (UInt64.ofNat (i + 1)) e.session e.kind.text e.time } := by
  rw [renumber, List.getElem?_mapIdx]

/-- Renumbering changes nothing that does not depend on the number and the id. -/
theorem map_renumber {α : Type} {f : Event → α} (hf : ∀ (e : Event) (seq : UInt64) (id : GoString),
    f { e with seq := seq, id := id } = f e) (events : List Event) : (rt.renumber events).map f = events.map f := by
  apply ext_getElem?
  intro i
  rw [List.getElem?_map, List.getElem?_map, getElem?_renumber, Option.map_map]
  exact congrFun (congrArg Option.map (funext fun e => hf e _ _)) _

/-- The number of events that are no compaction events, and what the compaction events note in `f`. -/
def accounted (f : Event → Int64) (events : List Event) : ℤ :=
  ((events.filter fun e => e.kind ≠ .compaction).length : ℤ) +
    ((events.filter fun e => e.kind = .compaction).map fun e => (f e).toInt).sum

/-- The tally under the key of the folded events. -/
def foldedEvents (e : Event) : Int64 := (e.counts.lookup (lit "folded_events")).getD 0

/-- The log is as long as it may be, numbered from one, and ends in the event of the last call. -/
structure Ordered (rt : Runtime) (limit : Limit) (calls : List rt.Call) (events : List Event) : Prop where
  length : events.length = min calls.length limit.maxEvents
  numbered : ∀ (i : ℕ) (e : Event), events[i]? = some e → e.seq = UInt64.ofNat (i + 1)
  last : events.getLast? = calls.getLast?.map fun c =>
    rt.sealEvent (UInt64.ofNat events.length) c.now c.event.sanitize

/-- What the log is to say of the calls it was made from. -/
structure Conserves (rt : Runtime) (limit : Limit) (calls : List rt.Call) (events : List Event) : Prop
    extends Ordered rt limit calls events where
  folded : accounted Event.folded events = calls.length
  tallied : accounted foldedEvents events = calls.length

/-- The shape of the log: no compaction event before the first fold, and one at its head, made from two events, after
it. -/
structure Folds (rt : Runtime) (limit : Limit) (calls : List rt.Call) (events : List Event) : Prop
    extends Ordered rt limit calls events where
  plain : calls.length ≤ limit.maxEvents → ∀ e ∈ events, e.kind ≠ .compaction
  folded : limit.maxEvents < calls.length → ∃ fold rest, events = fold :: rest ∧ fold.kind = .compaction ∧
    fold.folded = 2 ∧ foldedEvents fold = 2 ∧ ∀ e ∈ rest, e.kind ≠ .compaction

theorem foldedEvents_compactionFrom (a b : Event) (now session : GoString) :
    foldedEvents (rt.compactionFrom [a, b] now session) = 2 := by
  have hne : lit "folded_events" ≠ lit "folded_bytes" := by decide
  simp only [foldedEvents, compactionFrom, GoMap.lookup_insert_eq, if_neg hne, if_pos]
  rfl

theorem getLast?_renumber (events : List Event) (e : Event) :
    (rt.renumber (events ++ [e])).getLast? = some { e with
      seq := UInt64.ofNat (events.length + 1)
      id := rt.eventID (UInt64.ofNat (events.length + 1)) e.session e.kind.text e.time } := by
  rw [List.getLast?_eq_getElem?, getElem?_renumber, length_renumber]
  simp

section

variable (hmax : 2 ≤ limit.maxEvents)
include hmax

theorem ordered_append {done : List rt.Call} {events : List Event}
    (h : Ordered rt limit done events) (c : rt.Call) :
    Ordered rt limit (done ++ [c]) (rt.nextEvents limit events c.event.sanitize c.now) := by
  have hlen := h.length
  rcases nextEvents_cases hmax (hlen.trans_le (Nat.min_le_right _ _)) c.event.sanitize c.now with ⟨hlt, hnext⟩ |
    ⟨a, b, rest, rfl, hfull, hnext⟩
  · rw [hnext]
    constructor
    · rw [length_append, length_append, length_singleton, length_singleton]
      omega
    · intro i e he
      rcases getElem?_snoc_cases he with hold | ⟨rfl, rfl⟩
      · exact h.numbered i e hold
      · rfl
    · simp
  · rw [hnext, ← cons_append]
    constructor
    · simp only [length_renumber, length_append, length_cons, length_nil] at hfull ⊢
      simp only [length_cons] at hlen
      omega
    · intro i e he
      rw [getElem?_renumber] at he
      obtain ⟨e', -, rfl⟩ := Option.map_eq_some_iff.mp he
      rfl
    · rw [getLast?_renumber, List.getLast?_concat, length_renumber]
      simp only [length_append, length_cons, length_nil]
      rfl

/-- An append of an event that is no compaction event keeps the shape. -/
theorem folds_append {done : List rt.Call} {events : List Event} {c : rt.Call}
    (hkind : c.event.kind ≠ .compaction) (h : Folds rt limit done events) :
    Folds rt limit (done ++ [c]) (rt.nextEvents limit events c.event.sanitize c.now) := by
  refine ⟨ordered_append hmax h.toOrdered c, ?_, ?_⟩
  all_goals
    intro hcalls
    rw [length_append, length_singleton] at hcalls
    have hlen := h.length
    rcases nextEvents_cases hmax (hlen.trans_le (Nat.min_le_right _ _)) c.event.sanitize c.now with ⟨hlt, hnext⟩ |
      ⟨a, b, rest, rfl, hfull, hnext⟩
  · intro e he
    rw [hnext] at he
    rcases mem_append.mp he with he | he
    · exact h.plain (by omega) e he
    · rw [mem_singleton.mp he]
      exact hkind
  · omega
  · omega
  · have hrest : ∀ e ∈ rest, e.kind ≠ .compaction := by
      intro e he
      rcases Nat.lt_or_eq_of_le (Nat.le_of_lt_succ hcalls) with hlt | heq
      · obtain ⟨fold, rest', hcons, -, -, -, hplain⟩ := h.folded hlt
        obtain ⟨-, rfl⟩ := List.cons.inj hcons
        exact hplain e (.tail _ he)
      · exact h.plain heq.ge e (.tail _ (.tail _ he))
    have hkept : ∀ e ∈ rest ++ [rt.sealEvent (UInt64.ofNat ((a :: b :: rest).length + 1)) c.now c.event.sanitize],
        e.kind ≠ .compaction := forall_mem_append.mpr ⟨hrest, forall_mem_singleton.mpr hkind⟩
    rw [hnext]
    refine ⟨_, _, mapIdx_cons, rfl, rfl, foldedEvents_compactionFrom a b c.now c.event.sanitize.session, ?_⟩
    intro e he
    obtain ⟨i, hi, rfl⟩ := mem_mapIdx.mp he
    have hkind := hkept _ (getElem_mem hi)
    exact hkind

theorem folds_run {calls : List rt.Call} (hkinds : ∀ c ∈ calls, c.event.kind ≠ .compaction)
    {sealed : List Event} {log : Log} (h : appendAll (Log.fresh limit) calls = .ok (sealed, log)) :
    Folds rt limit calls log.writer.events := by
  have hstart : Folds rt limit [] [] :=
    ⟨⟨by simp, fun i e he => by simp at he, rfl⟩, fun _ e he => by simp at he, fun hlt => by simp at hlt⟩
  exact appendAll_keeps (fun _ _ _ _ hkind hfolds => folds_append hmax hkind hfolds) rfl h hkinds hstart

end

theorem accounted_of_plain {f : Event → Int64} {events : List Event} (h : ∀ e ∈ events, e.kind ≠ .compaction) :
    accounted f events = events.length := by
  have hnone : events.filter (fun e => e.kind = .compaction) = [] := by
    simpa using h
  have hall : events.filter (fun e => e.kind ≠ .compaction) = events := by
    simpa using h
  rw [accounted, hnone, hall]
  simp

theorem accounted_cons {f : Event → Int64} {fold : Event} {rest : List Event} (hkind : fold.kind = .compaction)
    (hrest : ∀ e ∈ rest, e.kind ≠ .compaction) : accounted f (fold :: rest) = (f fold).toInt + rest.length := by
  rw [← accounted_of_plain (f := f) hrest]
  simp only [accounted, filter_cons, hkind, ne_eq, not_true_eq_false, decide_false, decide_true, if_true,
    Bool.false_eq_true, if_false, map_cons, sum_cons]
  ring

/-- After any number of successful appends to a fresh log the log conserves the accounting exactly if it has been folded
at most once. -/
theorem conserves_iff (hmax : 2 ≤ limit.maxEvents) {calls : List rt.Call}
    (hkinds : ∀ c ∈ calls, c.event.kind ≠ .compaction) {sealed : List Event} {log : Log}
    (h : appendAll (Log.fresh limit) calls = .ok (sealed, log)) :
    Conserves rt limit calls log.writer.events ↔ calls.length ≤ limit.maxEvents + 1 := by
  have hfolds := folds_run hmax hkinds h
  have hlen := hfolds.length
  by_cases hcalls : calls.length ≤ limit.maxEvents
  · have hacc (f : Event → Int64) : accounted f log.writer.events = calls.length := by
      rw [accounted_of_plain (hfolds.plain hcalls), hlen, Nat.min_eq_left hcalls]
    exact ⟨fun _ => by omega, fun _ => ⟨hfolds.toOrdered, hacc _, hacc _⟩⟩
  · obtain ⟨fold, rest, heq, hkind, hfolded, htallied, hrest⟩ := hfolds.folded (Nat.not_le.mp hcalls)
    have hacc {f : Event → Int64} (hf : f fold = 2) : accounted f log.writer.events = limit.maxEvents + 1 := by
      rw [heq, length_cons] at hlen
      rw [heq, accounted_cons hkind hrest, hf]
      have htwo : (2 : Int64).toInt = 2 := by decide
      omega
    constructor
    · intro hconserves
      have hsum := hconserves.folded
      rw [hacc hfolded] at hsum
      omega
    · intro hle
      have hsum : (limit.maxEvents + 1 : ℤ) = calls.length := by omega
      exact ⟨hfolds.toOrdered, (hacc hfolded).trans hsum, (hacc htallied).trans hsum⟩

end Runtime

def twoEvents : Limit := ⟨2, by decide, by decide⟩

def notes (n : ℕ) : List sampleRuntime.Call := List.replicate n (noteCall (lit "ok"))

/-- Three of four events are left after the second fold: the event at the end, and two that the compaction event notes,
of which one was a compaction event itself. -/
theorem conserves_fails : ∃ sealed log, Runtime.appendAll (Log.fresh twoEvents) (notes 4) = .ok (sealed, log) ∧
    Runtime.accounted Event.folded log.writer.events = 3 ∧
      Runtime.accounted Runtime.foldedEvents log.writer.events = 3 := by
  have h : succeeds (Runtime.appendAll (Log.fresh twoEvents) (notes 4)) (fun r =>
      Runtime.accounted Event.folded r.2.writer.events = 3 &&
        Runtime.accounted Runtime.foldedEvents r.2.writer.events = 3) = true := by
    decide +kernel
  obtain ⟨⟨sealed, log⟩, happ, hthree⟩ := succeeds_iff.mp h
  simp only [Bool.and_eq_true, decide_eq_true_eq] at hthree
  exact ⟨sealed, log, happ, hthree⟩

theorem conserves_once : ∃ sealed log, Runtime.appendAll (Log.fresh twoEvents) (notes 3) = .ok (sealed, log) ∧
    Runtime.Conserves sampleRuntime twoEvents (notes 3) log.writer.events := by
  have h : succeeds (Runtime.appendAll (Log.fresh twoEvents) (notes 3)) (fun _ => true) = true := by
    decide +kernel
  obtain ⟨⟨sealed, log⟩, happ, -⟩ := succeeds_iff.mp h
  refine ⟨sealed, log, happ, (Runtime.conserves_iff (by decide) (fun c hc => ?_) happ).mpr (by decide)⟩
  rw [eq_of_mem_replicate hc]
  decide

end CodeMemory.SessionLog
