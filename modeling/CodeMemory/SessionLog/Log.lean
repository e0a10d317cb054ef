import CodeMemory.Lib.Scanner
import CodeMemory.SessionLog.Event

/-! The persistent log. `Append` seals an event, folds the oldest events into a compaction
event when the bound is exceeded, and replaces the file with the events as lines of JSON.
A failed append leaves the writer and the file as they were, so it is modelled by its
error alone. -/

namespace CodeMemory.SessionLog

open Lib Lib.GoString Lib.Decimal Lib.Json Lib.Result List

def defaultMaxEvents : Nat := 2048

def defaultMaxEventBytes : Nat := 64 * 1024

/-- A bound on the retained events: a positive `int`. -/
structure Limit where
  maxEvents : Nat
  pos : 0 < maxEvents
  lt : maxEvents < 2 ^ 63

structure Writer where
  limit : Limit
  events : List Event

/-- The log file as it is found on disk. -/
inductive Stored where
  | missing
  | unreadable
  | bytes (raw : GoString)

/-- A writer and the file it persists to. -/
structure Log where
  writer : Writer
  file : Stored

/-- What the file system lets `writeAtomic` do. -/
inductive Disk where
  | writable
  | noTemp
  | noCommit

/-- `e.Time < earliest`. -/
def strLt (s t : GoString) : Bool := strLe s t && s != t

def earliestTime (src : List Event) : GoString :=
  src.foldl (fun t e => if t = [] ∨ (e.time ≠ [] ∧ strLt e.time t) then e.time else t) []

def latestTime (src : List Event) : GoString :=
  src.foldl (fun t e => if strLt t e.time then e.time else t) []

/-- The tallies of a fold before its two totals are set. -/
def tally (src : List Event) : GoMap GoString Int64 :=
  src.foldl (fun acc e =>
    let key := e.kind.text ++ lit "_events"
    GoMap.update (fun _ v old => old.getD 0 + v) (acc.insert key ((acc.lookup key).getD 0 + 1)) e.counts) ∅

/-- What the log takes from the standard library. -/
structure Runtime where
  /-- The first sixteen bytes of `sha256.Sum256`. -/
  digest : GoString → GoString
  /-- Whether `time.Parse` reads a text as RFC 3339. -/
  timeOk : GoString → Bool
  /-- A finite number as `encoding/json` writes it. -/
  floatText : Float64 → GoString
  timeOk_nil : timeOk [] = false

def hexEncode (s : GoString) : GoString :=
  s.flatMap (fun b => [hexDigit (b.toNat / 16), hexDigit (b.toNat % 16)])

def rangeFields (r : Range) : List (GoString × Option Json) :=
  [(lit "start", omitInt64 r.start), (lit "end", omitInt64 r.stop)]

namespace Runtime

variable (rt : Runtime)

def eventID (seq : UInt64) (session kind time : GoString) : GoString :=
  hexEncode (rt.digest (natText seq.toNat ++ lit "|" ++ session ++ lit "|" ++ kind ++ lit "|" ++ time))

def omitFloat (f : Float64) : Option Json := if f = .zero then none else some (.num (rt.floatText f))

/-- A struct is never empty, so `omitempty` does not apply to the range. -/
def provenanceFields (p : Provenance) : List (GoString × Option Json) :=
  [(lit "repository", omitString p.repository),
    (lit "tree", omitString p.tree),
    (lit "base_digest", omitString p.baseDigest),
    (lit "path", omitString p.path),
    (lit "range", some (.obj (emit (rangeFields p.range)))),
    (lit "symbol", omitString p.symbol),
    (lit "handle", omitString p.handle),
    (lit "confidence", rt.omitFloat p.confidence)]

def eventFields (ev : Event) : List (GoString × Option Json) :=
  [(lit "schema", some (.str ev.schema)),
    (lit "id", some (.str ev.id)),
    (lit "seq", some (uint64 ev.seq)),
    (lit "session", omitString ev.session),
    (lit "kind", some (.str ev.kind.text)),
    (lit "time", some (.str ev.time)),
    (lit "verb", omitString ev.verb),
    (lit "provenance", some (.obj (emit (rt.provenanceFields ev.provenance)))),
    (lit "freshness", omitString ev.freshness.text),
    (lit "predicted_digest", omitString ev.predictedDigest),
    (lit "observed_digest", omitString ev.observedDigest),
    (lit "counts", omitCounts ev.counts),
    (lit "coverage_warnings", omitStrings ev.coverageWarnings),
    (lit "free_text", omitString ev.freeText),
    (lit "folded", omitInt64 ev.folded)]

/-- `json.Marshal` of an event, by way of `MarshalJSON`; it fails on a confidence that is
infinite or not a number. -/
def marshal (ev : Event) : Option GoString :=
  if ev.provenance.confidence.isFinite then some (render (.obj (emit (rt.eventFields ev.sanitize)))) else none

def sealEvent (seq : UInt64) (now : GoString) (ev : Event) : Event :=
  { ev with schema := currentSchema, id := rt.eventID seq ev.session ev.kind.text now, seq := seq, time := now }

/-- The encoding of an event; nothing for an event that cannot be encoded. -/
def line (ev : Event) : GoString := (rt.marshal ev).getD []

def foldedBytes (src : List Event) : Int64 :=
  src.foldl (fun n e => n + Int64.ofNat (rt.line e).length) 0

def compactionFrom (src : List Event) (now session : GoString) : Event :=
  { Event.zero with
    schema := currentSchema
    kind := .compaction
    session := session
    time := now
    freshness := .asOf
    provenance := { Provenance.zero with tree := lit "compaction", confidence := .one }
    counts := ((tally src).insert (lit "folded_events") (Int64.ofNat src.length)).insert
      (lit "folded_bytes") (rt.foldedBytes src)
    freeText := lit "compacted " ++ natText src.length ++ lit " events (" ++ earliestTime src ++ lit ".." ++
      latestTime src ++ lit ")"
    folded := Int64.ofNat src.length }

def renumber (events : List Event) : List Event :=
  events.mapIdx (fun i e =>
    let seq := UInt64.ofNat (i + 1)
    { e with seq := seq, id := rt.eventID seq e.session e.kind.text e.time })

/-- The events to persist when `ev` is added at the time `now`. -/
def nextEvents (limit : Limit) (events : List Event) (ev : Event) (now : GoString) : List Event :=
  let next := events ++ [rt.sealEvent (UInt64.ofNat (events.length + 1)) now ev]
  if limit.maxEvents < next.length then
    let overflow := next.length - limit.maxEvents + 1
    rt.renumber (rt.compactionFrom (next.take overflow) now ev.session :: next.drop overflow)
  else next

def encodeLog : List Event → Except LogError GoString
  | [] => .ok []
  | ev :: rest =>
    match rt.marshal ev with
    | none => .error .unsupportedValue
    | some line =>
      if defaultMaxEventBytes < line.length then .error (.eventTooLarge line.length)
      else do
        let raw ← encodeLog rest
        .ok (line ++ [Scanner.newline] ++ raw)

/-- The bytes that `writeAtomic` renames into place. -/
def writeAtomic (disk : Disk) (events : List Event) : Except LogError GoString :=
  match disk with
  | .noTemp => .error .writeFailed
  | .noCommit => do
    let _ ← rt.encodeLog events
    .error .writeFailed
  | .writable => rt.encodeLog events

def append (log : Log) (ev : Event) (now : GoString) (disk : Disk) : Except LogError (Event × Log) :=
  if ¬ ev.kind.valid then .error (.unknownKind ev.kind)
  else do
    let ev := ev.sanitize
    ev.validateFields
    validateProvenance ev
    let next := rt.nextEvents log.writer.limit log.writer.events ev now
    let raw ← rt.writeAtomic disk next
    .ok (next.getLastD ev, ⟨⟨log.writer.limit, next⟩, .bytes raw⟩)

/-- What every event in memory satisfies, from the checks made when it was appended or loaded. -/
structure Sound (ev : Event) : Prop where
  fields : ev.FieldsOk
  time : rt.timeOk ev.time = true
  seq : ev.seq ≠ 0

variable {rt} {ev sealed : Event} {events : List Event} {now : GoString} {log log' : Log} {limit : Limit}

theorem Sound.validate_ok_iff (h : rt.Sound ev) :
    ev.validate rt.timeOk = .ok () ↔ ev.freeText.length ≤ maxFreeTextBytes := by
  have htime : ev.time ≠ [] := by
    intro he
    have := h.time
    rw [he, rt.timeOk_nil] at this
    cases this
  rw [Event.validate_ok_iff, Event.validateFields_ok_iff]
  exact ⟨fun hv => hv.1.2, fun hs => ⟨⟨h.fields, hs⟩, h.seq, htime, h.time⟩⟩

theorem length_renumber (events : List Event) : (rt.renumber events).length = events.length :=
  length_mapIdx

theorem length_nextEvents (limit : Limit) (events : List Event) (ev : Event) (now : GoString) :
    (rt.nextEvents limit events ev now).length ≤ limit.maxEvents := by
  have hpos := limit.pos
  simp only [nextEvents]
  split_ifs with hover
  · rw [length_renumber, length_cons, length_drop]
    omega
  · exact Nat.not_lt.mp hover

theorem seq_ne_zero {n : Nat} (h : n + 1 < 2 ^ 64) : UInt64.ofNat (n + 1) ≠ 0 := by
  intro he
  have := congrArg UInt64.toNat he
  rw [UInt64.toNat_ofNat_of_lt' h] at this
  simp at this

theorem fieldsOk_compactionFrom (src : List Event) (now session : GoString) :
    (rt.compactionFrom src now session).FieldsOk :=
  ⟨(by decide : Kind.compaction.valid = true), .inr rfl, .inr (by decide : Freshness.asOf.valid = true),
    (by decide : Range.valid ⟨0, 0⟩ = true),
    (by decide : ¬ (Float64.one.ltZero = true ∨ Float64.one.gtOne = true)), .inl rfl⟩

theorem fieldsOk_sealEvent (h : ev.FieldsOk) (seq : UInt64) (now : GoString) : (rt.sealEvent seq now ev).FieldsOk :=
  ⟨h.kind, .inr rfl, h.freshness, h.range, h.confidence, h.path⟩

theorem sound_renumber (hlen : events.length < 2 ^ 64)
    (h : ∀ ev ∈ events, ev.FieldsOk ∧ rt.timeOk ev.time = true) : ∀ ev ∈ rt.renumber events, rt.Sound ev := by
  intro ev hev
  obtain ⟨i, hi, rfl⟩ := mem_mapIdx.mp hev
  obtain ⟨hf, ht⟩ := h _ (getElem_mem hi)
  exact ⟨⟨hf.kind, hf.schema, hf.freshness, hf.range, hf.confidence, hf.path⟩, ht,
    seq_ne_zero (by omega)⟩

/-- The events to persist are sound, folded or not. -/
theorem sound_nextEvents (hlen : events.length ≤ limit.maxEvents) (hs : ∀ e ∈ events, rt.Sound e) (hf : ev.FieldsOk)
    (hnow : rt.timeOk now = true) : ∀ e ∈ rt.nextEvents limit events ev now, rt.Sound e := by
  have hlt := limit.lt
  have hseal : rt.Sound (rt.sealEvent (UInt64.ofNat (events.length + 1)) now ev) :=
    ⟨fieldsOk_sealEvent hf _ now, hnow, seq_ne_zero (by omega)⟩
  have hnext : ∀ e ∈ events ++ [rt.sealEvent (UInt64.ofNat (events.length + 1)) now ev], rt.Sound e :=
    forall_mem_append.mpr ⟨hs, forall_mem_singleton.mpr hseal⟩
  simp only [nextEvents]
  split_ifs with hover
  · refine sound_renumber ?_ (forall_mem_cons.mpr ⟨⟨fieldsOk_compactionFrom _ _ _, hnow⟩, ?_⟩)
    · rw [length_cons, length_drop]
      omega
    · intro e he
      have hsound := hnext e (mem_of_mem_drop he)
      exact ⟨hsound.fields, hsound.time⟩
  · exact hnext

/-- What a successful append did. -/
theorem append_ok {disk : Disk} (h : rt.append log ev now disk = .ok (sealed, log')) : ev.sanitize.FieldsOk ∧ ∃ raw,
      rt.encodeLog (rt.nextEvents log.writer.limit log.writer.events ev.sanitize now) = .ok raw ∧
      log' = ⟨⟨log.writer.limit, rt.nextEvents log.writer.limit log.writer.events ev.sanitize now⟩, .bytes raw⟩ := by
  simp only [append, guard_eq_ok_iff, bind_eq_ok_iff] at h
  obtain ⟨-, ⟨⟩, hfs, ⟨⟩, -, raw, hwrite, heq⟩ := h
  cases heq
  refine ⟨(Event.validateFields_ok_iff.mp hfs).1, raw, ?_, rfl⟩
  cases disk with
  | writable => exact hwrite
  | noTemp => cases hwrite
  | noCommit =>
    obtain ⟨-, -, hfail⟩ := bind_eq_ok_iff.mp hwrite
    cases hfail

/-- One call of `Append`, with the clock's reading and the state of the disk. -/
structure Call (rt : Runtime) where
  event : Event
  now : GoString
  now_ok : rt.timeOk now = true
  disk : Disk

end Runtime

/-- A runtime with one clock reading, which writes a confidence as the number of its bits. -/
def sampleRuntime : Runtime where
  digest := fun _ => []
  timeOk := fun t => t = lit "2026-01-02T03:04:05Z"
  floatText := fun f => natText f.bits.toNat
  timeOk_nil := by decide +kernel

/-- An append of a `read` event with a note. -/
def noteCall (text : GoString) : sampleRuntime.Call where
  event := { Event.zero with kind := .read, freeText := text }
  now := lit "2026-01-02T03:04:05Z"
  now_ok := by decide +kernel
  disk := .writable

end CodeMemory.SessionLog
