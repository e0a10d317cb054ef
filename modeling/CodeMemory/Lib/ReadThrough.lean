import Mathlib

/-! A read-through cache of one file that many threads share. A load takes the
file's identity, looks for an entry with that identity, and otherwise decodes the
file, takes the identity again and stores the value under it if nothing changed.
Values are objects that are handed out by reference, and may be written in place;
a writer replaces the file and then drops the entry. -/

namespace CodeMemory.Lib.ReadThrough

/-- How a file is identified and what reading it gives. -/
structure Format (F I V : Type) where
  identity : F → Option I
  decode : F → Option V

/-- Where a thread stands; objects are named by their index in the heap. The file
that was decoded is recorded for the proofs. -/
inductive Phase (F I : Type) where
  | idle
  | statted (identity : Option I)
  | missed (identity : I)
  | decoded (identity : I) (source : F) (p : Nat)
  | confirmed (identity : I) (p : Nat)
  | returning (p : Nat)
  | failed
  | held (p : Nat)
  | replaced (p : Nat)

/-- The object that a load in flight is about to store or return. -/
def Phase.loading {F I : Type} : Phase F I → Option Nat
  | .decoded _ _ p => some p
  | .confirmed _ p => some p
  | .returning p => some p
  | _ => none

/-- The thread has nothing from the path that a caller waits for. -/
def Phase.quiet {F I : Type} : Phase F I → Bool
  | .statted _ | .decoded _ _ _ | .confirmed _ _ | .returning _ => false
  | _ => true

/-- The path and the process. `window` lists what was at the path since the
thread's last load began. -/
structure State (F I V : Type) where
  file : F
  heap : Nat → V
  next : Nat
  cache : Option (I × Nat)
  phase : Nat → Phase F I
  window : Nat → List F

inductive Action (F V : Type) where
  | stat (t : Nat)
  | lookup (t : Nat)
  | load (t : Nat)
  | decode (t : Nat)
  | restat (t : Nat)
  | store (t : Nat)
  | hold (t : Nat)
  | build (t : Nat) (v : V)
  | write (t : Nat) (v : V)
  | replace (t : Nat) (f : F)
  | abandon (t : Nat)
  | invalidate (t : Nat)
  | drop (t : Nat)

/-- The action changes an object or the file. -/
def Action.touches {F V : Type} : Action F V → Bool
  | .write _ _ | .replace _ _ => true
  | _ => false

namespace State

variable {F I V : Type}

/-- Nothing is cached and no thread has begun. -/
def start (file : F) (blank : V) : State F I V where
  file := file
  heap _ := blank
  next := 0
  cache := none
  phase _ := .idle
  window _ := [file]

def enter (s : State F I V) (t : Nat) (ph : Phase F I) : State F I V :=
  { s with phase := Function.update s.phase t ph }

/-- Place `v` in a new object, and tell the thread about it. -/
def alloc (s : State F I V) (t : Nat) (v : V) (ph : Nat → Phase F I) : State F I V :=
  { s.enter t (ph s.next) with heap := Function.update s.heap s.next v, next := s.next + 1 }

variable (fmt : Format F I V)

/-- One action; `none` if the thread is not at the point where it is taken. -/
def step [DecidableEq I] (s : State F I V) : Action F V → Option (State F I V)
  | .stat t =>
    match s.phase t with
    | .idle => some { s.enter t (.statted (fmt.identity s.file)) with
        window := Function.update s.window t [s.file] }
    | _ => none
  | .lookup t =>
    match s.phase t, s.cache with
    | .statted (some id), some (id', p) => some (s.enter t (if id' = id then .returning p else .missed id))
    | .statted (some id), none => some (s.enter t (.missed id))
    | _, _ => none
  -- without an identity the file is decoded and nothing is stored
  | .load t =>
    match s.phase t with
    | .statted none =>
      match fmt.decode s.file with
      | some v => some (s.alloc t v .returning)
      | none => some (s.enter t .failed)
    | _ => none
  | .decode t =>
    match s.phase t with
    | .missed id =>
      match fmt.decode s.file with
      | some v => some (s.alloc t v (.decoded id s.file))
      | none => some (s.enter t .failed)
    | _ => none
  | .restat t =>
    match s.phase t with
    | .decoded id _ p =>
      some (s.enter t (if fmt.identity s.file = some id then .confirmed id p else .returning p))
    | _ => none
  | .store t =>
    match s.phase t with
    | .confirmed id p => some { s.enter t (.returning p) with cache := some (id, p) }
    | _ => none
  | .hold t =>
    match s.phase t with
    | .returning p => some (s.enter t (.held p))
    | _ => none
  | .build t v =>
    match s.phase t with
    | .idle | .returning _ | .failed => some (s.alloc t v .held)
    | _ => none
  | .write t v =>
    match s.phase t with
    | .held p => some { s with heap := Function.update s.heap p v }
    | _ => none
  | .replace t f =>
    match s.phase t with
    | .held p => some { s.enter t (.replaced p) with file := f, window := fun u => f :: s.window u }
    | _ => none
  -- a save that fails before the file is replaced
  | .abandon t =>
    match s.phase t with
    | .held p => some (s.enter t (.replaced p))
    | _ => none
  | .invalidate t =>
    match s.phase t with
    | .replaced p => some { s.enter t (.held p) with cache := none }
    | _ => none
  | .drop t =>
    match s.phase t with
    | .returning _ | .failed | .held _ => some (s.enter t .idle)
    | _ => none

/-- A load in flight, or a later one, may still hand out the object. -/
def Shared (s : State F I V) (p : Nat) : Prop :=
  (∃ id, s.cache = some (id, p)) ∨ ∃ t, (s.phase t).loading = some p

/-- Identities determine files: what is put at the path is what `content` says of
its identity. -/
def Honest (content : I → F) : Action F V → Prop
  | .replace _ f => ∀ id, fmt.identity f = some id → content id = f
  | _ => True

/-- An object is not written in place while it is shared, and the file does not
take back the identity that a load in flight started from after that load has
decoded another file. -/
def Undisturbed (s : State F I V) : Action F V → Prop
  | .write t v => ∀ p, s.phase t = .held p → s.Shared p → v = s.heap p
  | .replace _ f => ∀ u id source p, s.phase u = .decoded id source p →
      fmt.identity f = some id → source = f
  | _ => True

theorem honest_undisturbed_of_not_touches {fmt : Format F I V} {content : I → F} {s : State F I V}
    {a : Action F V} (h : a.touches = false) : Honest fmt content a ∧ Undisturbed fmt s a := by
  cases a with
  | write _ _ | replace _ _ => cases h
  | _ => exact ⟨trivial, trivial⟩

/-- What a thread at `ph` knows. -/
def Knows (content : I → F) (s : State F I V) (t : Nat) : Phase F I → Prop
  | .statted (some id) => content id ∈ s.window t
  | .decoded id source p => source ∈ s.window t ∧ fmt.decode source = some (s.heap p) ∧
      (fmt.identity s.file = some id → source = s.file)
  | .confirmed id p => content id ∈ s.window t ∧ fmt.decode (content id) = some (s.heap p)
  | .returning p => ∃ f ∈ s.window t, fmt.decode f = some (s.heap p)
  | _ => True

structure Coherent (content : I → F) (s : State F I V) : Prop where
  file : ∀ id, fmt.identity s.file = some id → content id = s.file
  current : ∀ t, s.file ∈ s.window t
  entry : ∀ id p, s.cache = some (id, p) → fmt.decode (content id) = some (s.heap p)
  knows : ∀ t, Knows fmt content s t (s.phase t)
  shared : ∀ p, s.Shared p → p < s.next

variable {fmt} {content : I → F} {s s' : State F I V} {t : Nat}

@[simp] theorem enter_phase_self (ph : Phase F I) : (s.enter t ph).phase t = ph := Function.update_self ..

variable {u p : Nat}

theorem enter_phase_of_ne (ph : Phase F I) (h : u ≠ t) : (s.enter t ph).phase u = s.phase u :=
  Function.update_of_ne h ..

theorem coherent_start {file : F} {blank : V}
    (h : ∀ id, fmt.identity file = some id → content id = file) :
    Coherent fmt content (start file blank : State F I V) where
  file := h
  current _ := List.mem_singleton.mpr rfl
  entry _ _ hc := by cases hc
  knows _ := trivial
  shared p hp := by
    rcases hp with ⟨id, hc⟩ | ⟨t, hl⟩
    · cases hc
    · cases hl

/-- What a step must leave as it is for the threads that do not take it. -/
structure Keeps (fmt : Format F I V) (s s' : State F I V) (u : Nat) : Prop where
  phase : s'.phase u = s.phase u
  window : ∀ f ∈ s.window u, f ∈ s'.window u
  heap : ∀ p, (s.phase u).loading = some p → s'.heap p = s.heap p
  file : ∀ id source p, s.phase u = .decoded id source p → s'.file = s.file ∨
    (fmt.identity s'.file = some id → source = s'.file)

theorem Keeps.knows (hk : Keeps fmt s s' u) (h : Knows fmt content s u (s.phase u)) :
    Knows fmt content s' u (s'.phase u) := by
  rw [hk.phase]
  have hheap := hk.heap
  have hfile := hk.file
  revert h hheap hfile
  cases s.phase u with
  | statted id =>
    intro h _ _
    cases id with
    | none => exact trivial
    | some id => exact hk.window _ h
  | decoded id source p =>
    rintro ⟨hw, hd, hs⟩ hheap hfile
    refine ⟨hk.window _ hw, hd.trans (congrArg some (hheap p rfl).symm), ?_⟩
    rcases hfile id source p rfl with he | he
    · rwa [he]
    · exact he
  | confirmed id p =>
    rintro ⟨hw, hd⟩ hheap _
    exact ⟨hk.window _ hw, hd.trans (congrArg some (hheap p rfl).symm)⟩
  | returning p =>
    rintro ⟨f, hw, hd⟩ hheap _
    exact ⟨f, hk.window _ hw, hd.trans (congrArg some (hheap p rfl).symm)⟩
  | idle | missed _ | failed | held _ | replaced _ => exact fun _ _ _ => trivial

theorem Coherent.keeps (h : Coherent fmt content s) (hk : Keeps fmt s s' u) :
    Knows fmt content s' u (s'.phase u) := hk.knows (h.knows u)

variable {ph : Phase F I}

/-- The thread moves on; the file, the objects and the entry stay. -/
theorem Coherent.enter (h : Coherent fmt content s) (hph : Knows fmt content s t ph)
    (hl : ∀ p, ph.loading = some p → p < s.next) : Coherent fmt content (s.enter t ph) where
  file := h.file
  current := h.current
  entry := h.entry
  knows u := by
    by_cases hu : u = t
    · subst hu
      rw [enter_phase_self]
      cases ph <;> exact hph
    · exact h.keeps ⟨enter_phase_of_ne ph hu, fun _ => id, fun _ _ => rfl, fun _ _ _ _ => .inl rfl⟩
  shared p hp := by
    rcases hp with hc | ⟨u, hu⟩
    · exact h.shared p (.inl hc)
    · by_cases hut : u = t
      · subst hut
        rw [enter_phase_self] at hu
        exact hl p hu
      · rw [enter_phase_of_ne ph hut] at hu
        exact h.shared p (.inr ⟨u, hu⟩)

theorem Coherent.enter_quiet (h : Coherent fmt content s) (hq : ph.quiet = true) :
    Coherent fmt content (s.enter t ph) := by
  cases ph with
  | statted _ | decoded _ _ _ | confirmed _ _ | returning _ => cases hq
  | idle | missed _ | failed | held _ | replaced _ => exact h.enter trivial (by intro p hp; cases hp)

@[simp] theorem alloc_heap_next (v : V) (ph : Nat → Phase F I) : (s.alloc t v ph).heap s.next = v :=
  Function.update_self ..

section

variable (h : Coherent fmt content s)
include h

/-- A new object is shared by no one else. -/
theorem Coherent.alloc {v : V} {ph : Nat → Phase F I}
    (hph : Knows fmt content (s.alloc t v ph) t (ph s.next))
    (hl : ∀ p, (ph s.next).loading = some p → p = s.next) : Coherent fmt content (s.alloc t v ph) := by
  have hheap : ∀ p, s.Shared p → (s.alloc t v ph).heap p = s.heap p := fun p hp =>
    Function.update_of_ne (Nat.ne_of_lt (h.shared p hp)) ..
  have hother : ∀ u, u ≠ t → (s.alloc t v ph).phase u = s.phase u := fun u hu =>
    Function.update_of_ne hu ..
  have hself : (s.alloc t v ph).phase t = ph s.next := Function.update_self ..
  refine ⟨h.file, h.current, fun id p hc => ?_, fun u => ?_, fun p hp => ?_⟩
  · rw [hheap p (.inl ⟨id, hc⟩)]
    exact h.entry id p hc
  · by_cases hu : u = t
    · rw [hu, hself]
      exact hph
    · exact h.keeps ⟨hother u hu, fun _ => id, fun p hp => hheap p (.inr ⟨u, hp⟩), fun _ _ _ _ => .inl rfl⟩
  · rcases hp with hc | ⟨u, hu⟩
    · exact Nat.lt_succ_of_lt (h.shared p (.inl hc))
    · by_cases hut : u = t
      · rw [hut, hself] at hu
        rw [hl p hu]
        exact Nat.lt_succ_self _
      · rw [hother u hut] at hu
        exact Nat.lt_succ_of_lt (h.shared p (.inr ⟨u, hu⟩))

/-- An object that is not shared is written, or a shared one is left as it was. -/
theorem Coherent.write {v : V} (hv : s.Shared p → v = s.heap p) :
    Coherent fmt content { s with heap := Function.update s.heap p v } := by
  have hheap : ∀ q, s.Shared q → Function.update s.heap p v q = s.heap q := by
    intro q hq
    by_cases hqp : q = p
    · subst hqp
      rw [Function.update_self, hv hq]
    · exact Function.update_of_ne hqp ..
  refine ⟨h.file, h.current, fun id q hc => ?_, fun u => ?_, h.shared⟩
  · show _ = some (Function.update s.heap p v q)
    rw [hheap q (.inl ⟨id, hc⟩)]
    exact h.entry id q hc
  · exact h.keeps ⟨rfl, fun _ => id, fun q hq => hheap q (.inr ⟨u, hq⟩), fun _ _ _ _ => .inl rfl⟩

/-- Another file appears at the path. -/
theorem Coherent.replace {f : F}
    (hf : ∀ id, fmt.identity f = some id → content id = f)
    (hback : ∀ u id source p, s.phase u = .decoded id source p → fmt.identity f = some id → source = f) :
    Coherent fmt content { s with file := f, window := fun u => f :: s.window u } where
  file := hf
  current _ := (.head _)
  entry := h.entry
  knows u := h.keeps ⟨rfl, fun _ => List.mem_cons_of_mem f, fun _ _ => rfl,
    fun id source p hu => .inr (hback u id source p hu)⟩
  shared := h.shared

/-- A load begins: only the present file counts for it. -/
theorem Coherent.stat :
    Coherent fmt content { s.enter t (.statted (fmt.identity s.file)) with
      window := Function.update s.window t [s.file] } := by
  have hself : Function.update s.window t [s.file] t = [s.file] := Function.update_self ..
  refine ⟨h.file, fun u => ?_, h.entry, fun u => ?_, fun p hp => ?_⟩
  · show s.file ∈ Function.update s.window t [s.file] u
    by_cases hu : u = t
    · rw [hu, hself]
      exact List.mem_singleton.mpr rfl
    · rw [Function.update_of_ne hu]
      exact h.current u
  · by_cases hu : u = t
    · subst hu
      rw [enter_phase_self]
      cases hid : fmt.identity s.file with
      | none => exact trivial
      | some id =>
        show content id ∈ Function.update s.window u [s.file] u
        rw [hself, h.file id hid]
        exact List.mem_singleton.mpr rfl
    · refine h.keeps ⟨enter_phase_of_ne _ hu, fun f hf => ?_, fun _ _ => rfl, fun _ _ _ _ => .inl rfl⟩
      show f ∈ Function.update s.window t [s.file] u
      rwa [Function.update_of_ne hu]
  · rcases hp with hc | ⟨u, hu⟩
    · exact h.shared p (.inl hc)
    · by_cases hut : u = t
      · rw [hut] at hu
        rw [enter_phase_self] at hu
        cases hu
      · rw [enter_phase_of_ne _ hut] at hu
        exact h.shared p (.inr ⟨u, hu⟩)

/-- The entry is dropped, or holds what decoding the file of its identity gives. -/
theorem Coherent.setCache {entry : Option (I × Nat)}
    (he : ∀ id p, entry = some (id, p) → fmt.decode (content id) = some (s.heap p) ∧ p < s.next) :
    Coherent fmt content { s with cache := entry } where
  file := h.file
  current := h.current
  entry id p hc := (he id p hc).1
  knows := h.knows
  shared p hp := by
    rcases hp with ⟨id, hc⟩ | hu
    · exact (he id p hc).2
    · exact h.shared p (.inr hu)

theorem Coherent.loading_lt (hph : s.phase t = ph)
    (hl : ph.loading = some p) : p < s.next :=
  h.shared p (.inr ⟨t, hph ▸ hl⟩)

theorem Coherent.knows_of_phase (hph : s.phase t = ph) :
    Knows fmt content s t ph := hph ▸ h.knows t

/-- One step keeps the invariant. -/
theorem Coherent.step [DecidableEq I] {a : Action F V}
    (hs : s.step fmt a = some s') (ha : Honest fmt content a) (hu : Undisturbed fmt s a) :
    Coherent fmt content s' := by
  cases a <;> simp only [State.step] at hs
  case stat =>
    split at hs <;> cases hs
    exact h.stat
  case lookup t =>
    split at hs <;> cases hs
    · next id id' p hph hc =>
      by_cases hid : id' = id
      · subst hid
        rw [if_pos rfl]
        refine h.enter ⟨content id', h.knows_of_phase hph, h.entry id' p hc⟩ (fun q hq => ?_)
        obtain rfl : p = q := Option.some.inj hq
        exact h.shared p (.inl ⟨id', hc⟩)
      · rw [if_neg hid]
        exact h.enter_quiet rfl
    · exact h.enter_quiet rfl
  case load t =>
    split at hs
    · split at hs <;> cases hs
      · next v hv =>
        refine h.alloc ⟨s.file, h.current t, ?_⟩ (fun q hq => (Option.some.inj hq).symm)
        rw [hv, alloc_heap_next]
      · exact h.enter_quiet rfl
    · cases hs
  case decode t =>
    split at hs
    · split at hs <;> cases hs
      · next v hv =>
        refine h.alloc ⟨h.current t, ?_, fun _ => rfl⟩ (fun q hq => (Option.some.inj hq).symm)
        rw [hv, alloc_heap_next]
      · exact h.enter_quiet rfl
    · cases hs
  case restat t =>
    split at hs <;> cases hs
    next id source p hph =>
    obtain ⟨hw, hd, hsame⟩ := h.knows_of_phase hph
    have hlt := h.loading_lt hph rfl
    by_cases hid : fmt.identity s.file = some id
    · -- the file still has the identity, so it is the one that was decoded
      rw [if_pos hid]
      have hcont : content id = source := (h.file id hid).trans (hsame hid).symm
      exact h.enter ⟨hcont ▸ hw, hcont ▸ hd⟩ (fun q hq => (Option.some.inj hq) ▸ hlt)
    · rw [if_neg hid]
      exact h.enter ⟨source, hw, hd⟩ (fun q hq => (Option.some.inj hq) ▸ hlt)
  case store t =>
    split at hs <;> cases hs
    next id p hph =>
    obtain ⟨hw, hd⟩ := h.knows_of_phase hph
    have hlt := h.loading_lt hph rfl
    have hret : Coherent fmt content (s.enter t (.returning p)) :=
      h.enter ⟨content id, hw, hd⟩ (fun q hq => (Option.some.inj hq) ▸ hlt)
    refine hret.setCache (fun id' q he => ?_)
    cases he
    exact ⟨hd, hlt⟩
  case build =>
    split at hs <;> cases hs <;> exact h.alloc trivial (by intro p hp; cases hp)
  case write =>
    split at hs <;> cases hs
    next p hph => exact h.write (hu p hph)
  case replace =>
    split at hs <;> cases hs
    next p _ => exact (h.replace ha hu).enter_quiet (show Phase.quiet (.replaced p) = true from rfl)
  case invalidate =>
    split at hs <;> cases hs
    next p _ =>
    exact (h.enter_quiet (show Phase.quiet (.held p) = true from rfl)).setCache (by intro id q he; cases he)
  case hold | abandon | drop => split at hs <;> cases hs <;> exact h.enter_quiet rfl

/-- Along a run of such steps every load returns what decoding a file gives that
was at the path since the load began. -/
theorem Coherent.returning (hp : s.phase t = .returning p) :
    ∃ f ∈ s.window t, fmt.decode f = some (s.heap p) := h.knows_of_phase hp

end

end State

end CodeMemory.Lib.ReadThrough
