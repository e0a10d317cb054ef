import CodeMemory.Lib.Schedule

/-! Calls that run in sections over a shared state. A routine is a call cut where it
holds no lock; between two of its sections any number of sections of other calls can
run. A call is judged by what it returns and by the states it overlaps: what each of
its sections guarantees is what the others rely on. -/

namespace CodeMemory.Lib

open List

/-- A section changes the shared state, and the call goes on with what the section found. The input is what a section
learns from outside. -/
inductive Routine (I S α : Type) where
  | done (a : α)
  | turn (update : I → S → S) (next : I → S → Routine I S α)

namespace Routine

variable {I S α β : Type} {rely : S → S → Prop} {h h' : List S} {s s' : S} {post : α → List S → Prop}
  {r : Routine I S α} {Q R : Type}

def bind : Routine I S α → (α → Routine I S β) → Routine I S β
  | done a, k => k a
  | turn update next, k => turn update fun i s => (next i s).bind k

instance : Monad (Routine I S) where
  pure := done
  bind := bind

def atomic (f : I → S → α × S) : Routine I S α := turn (fun i s => (f i s).2) fun i s => done (f i s).1

/-- A section that changes nothing. -/
def asks (f : I → S → α) : Routine I S α := atomic fun i s => (f i s, s)

def reads (f : S → α) : Routine I S α := asks fun _ => f

/-- The states that a call overlaps, the newest first: the others take steps that meet `rely`. -/
inductive Grows (rely : S → S → Prop) (h : List S) : List S → Prop
  | refl : Grows rely h h
  | other (s s' : S) (h' : List S) (before : Grows rely h (s :: h')) (step : rely s s') : Grows rely h (s' :: s :: h')

theorem Grows.suffix (hgrows : Grows rely h h') : ∃ new, h' = new ++ h := by
  induction hgrows with
  | refl => exact ⟨[], rfl⟩
  | other s s' h' before step ih =>
    obtain ⟨new, hnew⟩ := ih
    exact ⟨s' :: new, by rw [hnew, cons_append]⟩

section

variable (htrans : ∀ s s' s'', rely s s' → rely s' s'' → rely s s'')
include htrans

/-- With a preorder, the states come in its order. -/
theorem Grows.pairwise {h h' : List S}
    (hgrows : Grows rely h h') (hh : h.Pairwise fun later earlier => rely earlier later) :
    h'.Pairwise fun later earlier => rely earlier later := by
  induction hgrows with
  | refl => exact hh
  | other s s' h' before step ih =>
    refine pairwise_cons.mpr ⟨fun m hm => ?_, ih⟩
    rcases mem_cons.mp hm with rfl | hm
    · exact step
    · exact htrans m s s' ((pairwise_cons.mp ih).1 m hm) step

/-- With a preorder, what came after a state lies above it. -/
theorem Grows.above {s : S}
    {h h' : List S} (hgrows : Grows rely (s :: h) h') : ∃ new, h' = new ++ s :: h ∧ ∀ m ∈ new, rely s m := by
  induction hgrows with
  | refl => exact ⟨[], rfl, fun m hm => (not_mem_nil hm).elim⟩
  | other s₁ s₂ h' before step ih =>
    obtain ⟨new, heq, habove⟩ := ih
    refine ⟨s₂ :: new, by rw [heq, cons_append], fun m hm => ?_⟩
    rcases mem_cons.mp hm with rfl | hm
    · cases new with
      | nil =>
        obtain ⟨rfl, -⟩ := List.cons.inj heq
        exact step
      | cons s₁' new =>
        obtain ⟨rfl, -⟩ := List.cons.inj heq
        exact htrans s s₁ m (habove s₁ (.head _)) step
    · exact habove m hm

end

/-- What lay before the first state lies before the last. -/
theorem Grows.tail (hgrows : Grows rely (s :: h) (s' :: h')) : h ⊆ h' := by
  obtain ⟨new, heq⟩ := hgrows.suffix
  cases new with
  | nil =>
    obtain ⟨-, rfl⟩ := List.cons.inj heq
    exact List.Subset.refl h'
  | cons s'' new =>
    obtain ⟨-, rfl⟩ := List.cons.inj heq
    exact fun m hm => mem_append_right _ (mem_cons_of_mem s hm)

theorem Grows.since (htrans : ∀ s s' s'', rely s s' → rely s' s'' → rely s s'')
    {new : List S} (hgrows : Grows rely (s :: h) (new ++ s :: h)) : ∀ m ∈ new, rely s m := by
  obtain ⟨new', heq, habove⟩ := hgrows.above htrans
  rw [append_cancel_right heq]
  exact habove

theorem Grows.head (hrefl : ∀ s, rely s s) (htrans : ∀ s s' s'', rely s s' → rely s' s'' → rely s s'')
    (hgrows : Grows rely (s :: h) (s' :: h')) : rely s s' := by
  obtain ⟨new, heq, habove⟩ := hgrows.above htrans
  cases new with
  | nil =>
    obtain ⟨rfl, -⟩ := List.cons.inj heq
    exact hrefl s'
  | cons s'' new =>
    obtain ⟨rfl, -⟩ := List.cons.inj heq
    exact habove s' (.head _)

theorem Grows.trans {h₁ h₂ h₃ : List S} (h : Grows rely h₁ h₂) (h' : Grows rely h₂ h₃) : Grows rely h₁ h₃ := by
  induction h' with
  | refl => exact h
  | other s s' h' before step ih => exact .other s s' h' ih step

theorem Grows.mono {rely' : S → S → Prop} (hrely : ∀ s s', rely s s' → rely' s s')
    (hgrows : Grows rely h h') : Grows rely' h h' := by
  induction hgrows with
  | refl => exact .refl
  | other s s' h' before step ih => exact .other s s' h' ih (hrely s s' step)

/-- What binds a call: `inv` holds between sections, `ok` is what its sections may assume besides, the others meet
`rely` once it has run a number of sections, and its own sections meet `guar`. -/
structure Contract (S : Type) where
  inv : S → Prop
  ok : S → Prop
  rely : ℕ → S → S → Prop
  guar : S → S → Prop

/-- All calls guarantee one relation and rely on it. -/
def Contract.free (inv : S → Prop) (le : S → S → Prop) : Contract S := ⟨inv, fun _ => True, fun _ => le, le⟩

section Rules

variable (c : Contract S)

/-- A call that has run `n` sections and overlapped the states `h` keeps the invariant, guarantees what it has to and
returns with `post`, if the others meet `rely`. -/
def Ensures (post : ℕ → α → List S → Prop) : Routine I S α → ℕ → List S → Prop
  | done a, n, h => post n a h
  | turn update next, n, h => ∀ s h', Grows (c.rely n) h (s :: h') → c.inv s → c.ok s → ∀ i,
      c.inv (update i s) ∧ c.guar s (update i s) ∧ (next i s).Ensures post (n + 1) (update i s :: s :: h')

variable {c} {n : ℕ} {post : ℕ → α → List S → Prop}

theorem Ensures.mono {post' : ℕ → α → List S → Prop}
    (hr : r.Ensures c post n h) (hpost : ∀ n a h, post n a h → post' n a h) : r.Ensures c post' n h := by
  induction r generalizing n h with
  | done a => exact hpost n a h hr
  | turn update next ih =>
    intro s h' hgrows hinv hok i
    obtain ⟨hkeeps, hguar, hnext⟩ := hr s h' hgrows hinv hok i
    exact ⟨hkeeps, hguar, ih i s hnext⟩

theorem Ensures.bind {post : ℕ → β → List S → Prop} {k : α → Routine I S β}
    (hr : r.Ensures c (fun n a h => (k a).Ensures c post n h) n h) : (r >>= k).Ensures c post n h := by
  induction r generalizing n h with
  | done a => exact hr
  | turn update next ih =>
    intro s h' hgrows hinv hok i
    obtain ⟨hkeeps, hguar, hnext⟩ := hr s h' hgrows hinv hok i
    exact ⟨hkeeps, hguar, ih i s hnext⟩

theorem Ensures.atomic {f : I → S → α × S} (hf : ∀ s h', Grows (c.rely n) h (s :: h') → c.inv s → c.ok s → ∀ i,
      c.inv (f i s).2 ∧ c.guar s (f i s).2 ∧ post (n + 1) (f i s).1 ((f i s).2 :: s :: h')) :
    (Routine.atomic f).Ensures c post n h :=
  hf

theorem Ensures.asks (hguar : ∀ s, c.guar s s) {f : I → S → α}
    (hf : ∀ s h', Grows (c.rely n) h (s :: h') → c.inv s → ∀ i, post (n + 1) (f i s) (s :: s :: h')) :
    (Routine.asks f).Ensures c post n h :=
  fun s h' hgrows hinv _ i => ⟨hinv, hguar s, hf s h' hgrows hinv i⟩

theorem Ensures.reads (hguar : ∀ s, c.guar s s) {f : S → α}
    (hf : ∀ s h', Grows (c.rely n) h (s :: h') → c.inv s → post (n + 1) (f s) (s :: s :: h')) :
    (Routine.reads f : Routine I S α).Ensures c post n h :=
  Ensures.asks hguar fun s h' hgrows hinv _ => hf s h' hgrows hinv

/-- Steps of the others and of the call itself are steps of one relation, from the section `N` on. -/
theorem Ensures.grows (le : S → S → Prop) {N : ℕ} (hrely : ∀ n, N ≤ n → ∀ s s', c.rely n s s' → le s s')
    (hguar : ∀ s s', c.guar s s' → le s s')
    (hn : N ≤ n) (hr : r.Ensures c post n h) : r.Ensures c (fun n a h' => post n a h' ∧ Grows le h h') n h := by
  induction r generalizing n h with
  | done a => exact ⟨hr, .refl⟩
  | turn update next ih =>
    intro s h' hgrows hinv hok i
    obtain ⟨hkeeps, hstep, hnext⟩ := hr s h' hgrows hinv hok i
    refine ⟨hkeeps, hstep, (ih i s (hn.trans (Nat.le_succ n)) hnext).mono fun _ a h'' hpost => ⟨hpost.1, ?_⟩⟩
    exact (Grows.other s _ h' (hgrows.mono (hrely n hn)) (hguar s _ hstep)).trans hpost.2

end Rules

/-- A call that changes nothing; `post` says what it returns of the states since it began, the newest first. -/
def Observes (post : α → List S → Prop) (r : Routine I S α) : Prop :=
  ∀ (c : Contract S) (n : ℕ) (h : List S), (∀ s, c.guar s s) →
    r.Ensures c (fun n' a h' => n ≤ n' ∧ ∃ new, h' = new ++ h ∧ post a new) n h

theorem Observes.pure {a : α} (hpost : post a []) : (Pure.pure a : Routine I S α).Observes post :=
  fun _ n _ _ => ⟨Nat.le_refl n, [], rfl, hpost⟩

theorem Observes.asks {f : I → S → α} (hf : ∀ i s rest, post (f i s) (s :: rest)) :
    (Routine.asks f).Observes post := by
  intro c n h hguar
  refine .asks hguar fun s h' hgrows _ i => ⟨Nat.le_succ n, ?_⟩
  obtain ⟨new, hnew⟩ := hgrows.suffix
  exact ⟨s :: new, by rw [hnew, cons_append], hf i s new⟩

theorem Observes.reads {f : S → α} (hf : ∀ s rest, post (f s) (s :: rest)) :
    (Routine.reads f : Routine I S α).Observes post :=
  Observes.asks fun _ => hf

theorem Observes.mono {post' : α → List S → Prop} (hr : r.Observes post)
    (hpost : ∀ a new, post a new → post' a new) : r.Observes post' := by
  intro c n h hguar
  refine (hr c n h hguar).mono fun n' a h' hpost' => ?_
  obtain ⟨hn, new, hnew, ha⟩ := hpost'
  exact ⟨hn, new, hnew, hpost a new ha⟩

theorem Observes.bind {P : α → List S → Prop} {post : β → List S → Prop} {k : α → Routine I S β} (hr : r.Observes P)
    (hk : ∀ a, (k a).Observes fun b new => ∀ old, P a old → post b (new ++ old)) : (r >>= k).Observes post := by
  intro c n h hguar
  refine .bind ((hr c n h hguar).mono fun n₁ a h₁ hP => ?_)
  obtain ⟨hn₁, old, rfl, ha⟩ := hP
  refine (hk a c n₁ (old ++ h) hguar).mono fun n₂ b h₂ hpost => ?_
  obtain ⟨hn₂, new, rfl, hb⟩ := hpost
  exact ⟨hn₁.trans hn₂, new ++ old, by rw [append_assoc], hb old ha⟩

/-- A call under way: its number, its request, how many sections it ran, the rest of it and the states it overlapped. -/
structure Flight (Q I S R : Type) where
  id : ℕ
  request : Q
  ran : ℕ
  rest : Routine I S R
  seen : List S

structure Return (Q S R : Type) where
  request : Q
  result : R
  seen : List S

/-- Calls are numbered as they come. -/
structure System (Q I S R : Type) where
  shared : S
  calls : ℕ
  flights : List (Flight Q I S R)
  returns : List (Return Q S R)

inductive Event (Q I : Type) where
  | call (q : Q)
  | resume (n : ℕ) (i : I)

section Steps

variable (routine : ℕ → Q → Routine I S R) (sys : System Q I S R)

/-- A call that is done returns at once. -/
def System.place (f : Flight Q I S R) : System Q I S R :=
  match f.rest with
  | .done a => { sys with returns := sys.returns ++ [⟨f.request, a, f.seen⟩] }
  | .turn .. => { sys with flights := sys.flights ++ [f] }

def Flight.see (s : S) (f : Flight Q I S R) : Flight Q I S R := { f with seen := s :: f.seen }

/-- The calls beside one of them, once the shared state has changed. -/
def System.others (n : ℕ) (s : S) : System Q I S R :=
  { sys with shared := s, flights := (sys.flights.eraseIdx n).map (Flight.see s) }

def System.step : Event Q I → System Q I S R
  | .call q => { sys with calls := sys.calls + 1 }.place ⟨sys.calls, q, 0, routine sys.calls q, [sys.shared]⟩
  | .resume n i =>
    match sys.flights[n]? with
    | none => sys
    | some f =>
      match f.rest with
      | .done _ => sys
      | .turn update next =>
        let shared := update i sys.shared
        (sys.others n shared).place ⟨f.id, f.request, f.ran + 1, next i sys.shared, shared :: f.seen⟩

def System.run (es : List (Event Q I)) : System Q I S R := es.foldl (System.step routine) sys

def System.start (s : S) : System Q I S R := ⟨s, 0, [], []⟩

end Steps

/-- The contracts of all calls, by their number and their request; the invariant is common. -/
structure Discipline (Q S : Type) where
  inv : S → Prop
  ok : Q → S → Prop
  rely : ℕ → Q → ℕ → S → S → Prop
  guar : ℕ → Q → S → S → Prop

def Discipline.contract (d : Discipline Q S) (id : ℕ) (q : Q) : Contract S := ⟨d.inv, d.ok q, d.rely id q, d.guar id q⟩

def Discipline.free (inv : S → Prop) (le : S → S → Prop) : Discipline Q S :=
  ⟨inv, fun _ _ => True, fun _ _ _ => le, fun _ _ => le⟩

/-- Every call keeps its contract and returns with its postcondition. -/
def Keeps (routine : ℕ → Q → Routine I S R) (d : Discipline Q S) (post : Q → R → List S → Prop) : Prop :=
  ∀ id q s, d.inv s → (routine id q).Ensures (d.contract id q) (fun _ => post q) 0 [s]

/-- Where a call under way stands: what is left of it ensures the rest. -/
def Flight.Stands (d : Discipline Q S) (post : Q → R → List S → Prop) (s : S) (f : Flight Q I S R) : Prop :=
  ∃ h t, f.rest.Ensures (d.contract f.id f.request) (fun _ => post f.request) f.ran h ∧
    Grows (d.rely f.id f.request f.ran) h f.seen ∧ f.seen = s :: t

structure System.Sound (d : Discipline Q S) (post : Q → R → List S → Prop) (sys : System Q I S R) : Prop where
  keeps : d.inv sys.shared
  stands : ∀ f ∈ sys.flights, f.Stands d post sys.shared
  returned : ∀ r ∈ sys.returns, post r.request r.result r.seen
  named : ∀ f ∈ sys.flights, f.id < sys.calls
  distinct : (sys.flights.map Flight.id).Nodup

/-- What an interleaving has to meet: whenever a call takes a step, what it assumes holds and every other call under way
can bear the step. -/
structure Tolerant (C : System Q I S R → Event Q I → Prop) (d : Discipline Q S) : Prop where
  ok : ∀ sys n i f, C sys (.resume n i) → sys.flights[n]? = some f → d.ok f.request sys.shared
  bears : ∀ sys n i f, C sys (.resume n i) → sys.flights[n]? = some f → ∀ s', d.guar f.id f.request sys.shared s' →
    ∀ g ∈ sys.flights.eraseIdx n, g.id ≠ f.id → d.rely g.id g.request g.ran sys.shared s'

section Interleavings

variable {routine : ℕ → Q → Routine I S R} {d : Discipline Q S} {post : Q → R → List S → Prop}
  {C : System Q I S R → Event Q I → Prop} {sys : System Q I S R} {f : Flight Q I S R} {n : ℕ} {i : I} {e : Event Q I}
  {r : Return Q S R} {es : List (Event Q I)} {le : S → S → Prop}

theorem System.Sound.place (hsys : sys.Sound d post) {t : List S}
    (hf : f.rest.Ensures (d.contract f.id f.request) (fun _ => post f.request) f.ran f.seen)
    (hseen : f.seen = sys.shared :: t) (hnamed : f.id < sys.calls) (hnew : f.id ∉ sys.flights.map Flight.id) :
    (sys.place f).Sound d post := by
  unfold System.place
  split
  · next a hrest =>
    rw [hrest] at hf
    exact ⟨hsys.keeps, hsys.stands, forall_mem_append.mpr ⟨hsys.returned, forall_mem_singleton.mpr hf⟩, hsys.named,
      hsys.distinct⟩
  · refine ⟨hsys.keeps, forall_mem_append.mpr ⟨hsys.stands, forall_mem_singleton.mpr ⟨f.seen, t, hf, .refl, hseen⟩⟩,
      hsys.returned, forall_mem_append.mpr ⟨hsys.named, forall_mem_singleton.mpr hnamed⟩, ?_⟩
    rw [map_append, map_singleton, ← concat_eq_append]
    exact hsys.distinct.concat hnew

/-- No other call has the number of the one that runs. -/
theorem System.Sound.other (hsys : sys.Sound d post)
    (hf : sys.flights[n]? = some f) : f.id ∉ (sys.flights.eraseIdx n).map Flight.id := by
  obtain ⟨hn, rfl⟩ := List.getElem?_eq_some_iff.mp hf
  have hsplit : sys.flights = sys.flights.take n ++ sys.flights[n] :: sys.flights.drop (n + 1) := by
    rw [cons_getElem_drop_succ, take_append_drop]
  have hdistinct := hsys.distinct
  rw [hsplit, map_append, map_cons, nodup_middle, nodup_cons, ← map_append] at hdistinct
  rw [eraseIdx_eq_take_drop_succ]
  exact hdistinct.1

/-- The others have overlapped one more step. -/
theorem System.Sound.others (htol : Tolerant C d) (hsys : sys.Sound d post)
    (hC : C sys (.resume n i)) (hf : sys.flights[n]? = some f) (hs : d.inv s)
    (hguar : d.guar f.id f.request sys.shared s) :
    (sys.others n s).Sound d post ∧ f.id ∉ (sys.others n s).flights.map Flight.id := by
  have hother := hsys.other hf
  have hids : (sys.others n s).flights.map Flight.id = (sys.flights.eraseIdx n).map Flight.id := by
    rw [System.others, map_map]
    rfl
  refine ⟨⟨hs, fun g hg => ?_, hsys.returned, fun g hg => ?_, ?_⟩, hids ▸ hother⟩
  · obtain ⟨g, hmem, rfl⟩ := mem_map.mp hg
    have hne : g.id ≠ f.id := fun heq => hother (heq ▸ mem_map_of_mem hmem)
    have hstep := htol.bears sys n i f hC hf s hguar g hmem hne
    obtain ⟨h, t, hensures, hgrows, hseen⟩ := hsys.stands g (mem_of_mem_eraseIdx hmem)
    rw [hseen] at hgrows
    refine ⟨h, sys.shared :: t, hensures, ?_, ?_⟩
    · simp only [Flight.see, hseen]
      exact .other _ _ t hgrows hstep
    · simp only [Flight.see, hseen]
      rfl
  · obtain ⟨g, hmem, rfl⟩ := mem_map.mp hg
    exact hsys.named g (mem_of_mem_eraseIdx hmem)
  · rw [hids]
    exact hsys.distinct.sublist ((eraseIdx_sublist _ n).map _)

/-- What the next section of a call under way does. -/
theorem System.Sound.turns (hsys : sys.Sound d post) (htol : Tolerant C d)
    (hC : C sys (.resume n i)) (hf : sys.flights[n]? = some f) {update : I → S → S}
    {next : I → S → Routine I S R} (hrest : f.rest = .turn update next) :
    d.inv (update i sys.shared) ∧ d.guar f.id f.request sys.shared (update i sys.shared) ∧
      (next i sys.shared).Ensures (d.contract f.id f.request) (fun _ => post f.request) (f.ran + 1)
        (update i sys.shared :: f.seen) := by
  obtain ⟨h, t, hensures, hgrows, hseen⟩ := hsys.stands f (mem_of_getElem? hf)
  rw [hrest] at hensures
  rw [hseen] at hgrows ⊢
  exact hensures sys.shared t hgrows hsys.keeps (htol.ok sys n i f hC hf) i

theorem System.Sound.step (hroutine : Keeps routine d post) (htol : Tolerant C d)
    (he : C sys e) (hsys : sys.Sound d post) : (sys.step routine e).Sound d post := by
  cases e with
  | call q =>
    have hnext : ({ sys with calls := sys.calls + 1 } : System Q I S R).Sound d post :=
      ⟨hsys.keeps, hsys.stands, hsys.returned, fun f hf => Nat.lt_succ_of_lt (hsys.named f hf), hsys.distinct⟩
    refine hnext.place (hroutine sys.calls q sys.shared hsys.keeps) rfl (Nat.lt_succ_self _) fun hmem => ?_
    obtain ⟨f, hf, hid⟩ := mem_map.mp hmem
    exact Nat.ne_of_lt (hsys.named f hf) hid
  | resume n i =>
    simp only [System.step]
    split
    · exact hsys
    · next f hf =>
      split
      · exact hsys
      · next update next hrest =>
        obtain ⟨hkeeps, hguar, hnext⟩ := hsys.turns htol he hf hrest
        obtain ⟨hothers, hnew⟩ := hsys.others htol he hf hkeeps hguar
        exact hothers.place hnext rfl (hsys.named f (mem_of_getElem? hf)) hnew

theorem System.Sound.start (hs : d.inv s) : (System.start s : System Q I S R).Sound d post :=
  ⟨hs, fun _ hf => (not_mem_nil hf).elim, fun _ hr => (not_mem_nil hr).elim,
    fun _ hf => (not_mem_nil hf).elim, nodup_nil⟩

/-- In every interleaving that meets `C`, the invariant holds and every call returns with its postcondition. -/
theorem System.Sound.run (hroutine : Keeps routine d post) (htol : Tolerant C d) (hs : d.inv s)
    (hes : Schedule.Meets (System.step routine) C (System.start s) es) :
    ((System.start s).run routine es).Sound d post :=
  hes.keeps (P := System.Sound d post) (fun _ _ he hsys => hsys.step hroutine htol he) (.start hs)

theorem System.shared_place (sys : System Q I S R) (f : Flight Q I S R) : (sys.place f).shared = sys.shared := by
  unfold System.place
  split
  · rfl
  · rfl

/-- If every call guarantees `le` then a step leaves the shared state or takes it up. -/
theorem System.Sound.step_le (routine : ℕ → Q → Routine I S R) (hrefl : ∀ s, le s s)
    (hle : ∀ id q s s', d.guar id q s s' → le s s') (htol : Tolerant C d)
    (hsys : sys.Sound d post) (he : C sys e) : le sys.shared (sys.step routine e).shared := by
  cases e with
  | call q =>
    rw [System.step, System.shared_place]
    exact hrefl sys.shared
  | resume n i =>
    simp only [System.step]
    split
    · exact hrefl sys.shared
    · next f hf =>
      split
      · exact hrefl sys.shared
      · next update next hrest =>
        rw [System.shared_place]
        exact hle f.id f.request _ _ (hsys.turns htol he hf hrest).2.1

/-- If every call guarantees `le` then the shared state only goes up. -/
theorem System.Sound.run_le (hrefl : ∀ s, le s s)
    (htrans : ∀ s s' s'', le s s' → le s' s'' → le s s'') (hle : ∀ id q s s', d.guar id q s s' → le s s')
    (hroutine : Keeps routine d post) (htol : Tolerant C d) (hsys : sys.Sound d post)
    (hes : Schedule.Meets (System.step routine) C sys es) :
    le sys.shared (sys.run routine es).shared := by
  induction es generalizing sys with
  | nil => exact hrefl sys.shared
  | cons e es ih =>
    exact htrans _ _ _ (hsys.step_le routine hrefl hle htol hes.1) (ih (hsys.step hroutine htol hes.1) hes.2)

theorem System.mem_returns_place (hr : r ∈ (sys.place f).returns) : r ∈ sys.returns ∨ r.seen = f.seen := by
  unfold System.place at hr
  split at hr
  · rcases mem_append.mp hr with hr | hr
    · exact .inl hr
    · obtain rfl := mem_singleton.mp hr
      exact .inr rfl
  · exact .inl hr

/-- A call that returns has just seen the shared state. -/
theorem System.mem_returns_step (hr : r ∈ (sys.step routine e).returns) :
    r ∈ sys.returns ∨ ∃ rest, r.seen = (sys.step routine e).shared :: rest := by
  cases e with
  | call q =>
    refine (mem_returns_place hr).imp_right fun hseen => ⟨[], ?_⟩
    rw [hseen, System.step, System.shared_place]
  | resume n i =>
    simp only [System.step] at hr
    split at hr
    · exact .inl hr
    · next f hf =>
      split at hr
      · exact .inl hr
      · next update next hrest =>
        refine (mem_returns_place hr).imp_right fun hseen => ⟨f.seen, ?_⟩
        simp only [hseen, System.step, hf, hrest, System.shared_place]
        rfl

/-- If every call guarantees `le`, the last state that a call saw lies below the present one. -/
theorem System.Sound.run_returns (hrefl : ∀ s, le s s)
    (htrans : ∀ s s' s'', le s s' → le s' s'' → le s s'') (hle : ∀ id q s s', d.guar id q s s' → le s s')
    (hroutine : Keeps routine d post) (htol : Tolerant C d) (hs : d.inv s)
    (hes : Schedule.Meets (System.step routine) C (System.start s) es) :
    ∀ r ∈ ((System.start s).run routine es).returns,
      ∃ last rest, r.seen = last :: rest ∧ le last ((System.start s).run routine es).shared := by
  have hrun := hes.keeps (P := fun sys => sys.Sound d post ∧
    ∀ r ∈ sys.returns, ∃ last rest, r.seen = last :: rest ∧ le last sys.shared) ?_ ⟨.start hs, ?_⟩
  · exact hrun.2
  · rintro sys e he ⟨hsys, hreturns⟩
    refine ⟨hsys.step hroutine htol he, fun r hr => ?_⟩
    rcases System.mem_returns_step hr with hold | ⟨rest, hseen⟩
    · obtain ⟨last, rest, hseen, hlast⟩ := hreturns r hold
      exact ⟨last, rest, hseen, htrans _ _ _ hlast (hsys.step_le routine hrefl hle htol he)⟩
    · exact ⟨_, rest, hseen, hrefl _⟩
  · exact fun r hr => (not_mem_nil hr).elim

section Free

variable {inv : S → Prop}

theorem tolerant_free : Tolerant (fun (_ : System Q I S R) (_ : Event Q I) => True) (Discipline.free inv le) :=
  ⟨fun _ _ _ _ _ _ => trivial, fun _ _ _ _ _ _ _ hstep _ _ _ => hstep⟩

variable (hroutine : Keeps routine (Discipline.free inv le) post)
include hroutine

/-- Calls that guarantee and rely on one relation bear every interleaving. -/
theorem System.Sound.run_free {s : S} (hs : inv s) (es : List (Event Q I)) :
    ((System.start s).run routine es).Sound (Discipline.free inv le) post :=
  .run hroutine tolerant_free hs (Schedule.meets_of_forall (fun _ _ _ => trivial) _)

theorem System.Sound.run_free_le (hrefl : ∀ s, le s s) (htrans : ∀ s s' s'', le s s' → le s' s'' → le s s'')
    {sys : System Q I S R} (hsys : sys.Sound (Discipline.free inv le) post) (es : List (Event Q I)) :
    le sys.shared (sys.run routine es).shared :=
  hsys.run_le hrefl htrans (fun _ _ _ _ h => h) hroutine tolerant_free
    (Schedule.meets_of_forall (fun _ _ _ => trivial) _)

end Free

end Interleavings

end Routine

end CodeMemory.Lib
