import CodeMemory.Lib.GoMap
import CodeMemory.Lib.GoString

/-! The answer cache and the score cache of the retrieval service. Each keeps a recency list
and a map from keys to its elements. What is in them is the list alone, most recent first; that
the map agrees with it is shown of the cache as the code keeps it. The two differ in when an
entry is stale, in what they refuse to store and in whether the `put` of a new key sweeps stale
entries out. -/

namespace CodeMemory.Hosted

open Lib List

structure Timed (V : Type) where
  key : GoString
  value : V
  expires : Int

structure CachePolicy (V : Type) where
  stale : (now expires : Int) → Bool
  refuses : GoString → V → Bool
  sweeps : Bool
  stale_mono : ∀ {a b expires : Int}, a ≤ b → stale a expires → stale b expires

def queryCache (V : Type) : CachePolicy V where
  stale now expires := expires < now
  refuses _ _ := false
  sweeps := true
  stale_mono := by simp only [decide_eq_true_eq]; omega

inductive CacheEvent (V : Type) where
  | hit (value : V)
  | miss
  | stale

/-- The keys that a lookup of the key touches. -/
def CacheEvent.touched {V : Type} (key : GoString) : CacheEvent V → List GoString
  | .hit _ => [key]
  | .miss | .stale => []

/-- A call, with the readings of the clock it makes. -/
inductive CacheCall (V : Type) where
  | get (key : GoString) (now : Int)
  | put (key : GoString) (value : V) (now swept : Int)

variable {V : Type}

def CacheCall.key : CacheCall V → GoString
  | .get key _ | .put key _ _ _ => key

/-- The call stores nothing under the key and reads no clock after `t`. -/
def CacheCall.Quiet (key : GoString) (t : Int) : CacheCall V → Prop
  | .get _ now => now ≤ t
  | .put k _ _ swept => k ≠ key ∧ swept ≤ t

section
variable (p : CachePolicy V) (ttl : Int) (max : ℕ) (entries : List (Timed V))

/-- `MoveToFront`, or the replacement of an element that is moved there. -/
def toFront (e : Timed V) : List (Timed V) := e :: entries.filter (·.key ≠ e.key)

def CachePolicy.get (key : GoString) (now : Int) : CacheEvent V × List (Timed V) :=
  match entries.find? (·.key = key) with
  | none => (.miss, entries)
  | some e =>
    if p.stale now e.expires then (.stale, entries.filter (·.key ≠ key))
    else (.hit e.value, toFront entries e)

def CachePolicy.put (key : GoString) (value : V) (now swept : Int) : List (Timed V) :=
  let e : Timed V := ⟨key, value, now + ttl⟩
  if p.refuses key value then entries
  else if entries.any (·.key = key) then toFront entries e
  else ((e :: entries).filter fun x => !(p.sweeps && p.stale swept x.expires)).take max

def CachePolicy.step : CacheCall V → List (Timed V)
  | .get key now => (p.get entries key now).2
  | .put key value now swept => p.put ttl max entries key value now swept

end

/-- The entry is present, and those before it have distinct keys in `U`. -/
def Ahead (U : Finset GoString) (e : Timed V) (entries : List (Timed V)) : Prop :=
  ∃ before after, entries = before ++ e :: after ∧ (before.map (·.key)).Nodup ∧ ∀ x ∈ before, x.key ∈ U

section
variable {p : CachePolicy V} {ttl t : Int} {max : ℕ} {entries : List (Timed V)} {e x : Timed V}
  {U : Finset GoString} {call : CacheCall V}

theorem Ahead.first (e : Timed V) (entries : List (Timed V)) : Ahead U e (e :: entries) :=
  ⟨[], entries, rfl, nodup_nil, by simp⟩

theorem Ahead.find (h : Ahead U e entries) (he : e.key ∉ U) : entries.find? (·.key = e.key) = some e := by
  obtain ⟨before, after, rfl, -, hmem⟩ := h
  have hnone : before.find? (·.key = e.key) = none :=
    find?_eq_none.mpr fun x hx => by simpa using ne_of_mem_of_not_mem (hmem x hx) he
  rw [find?_append, hnone, Option.none_or, find?_cons_of_pos (by simp)]

theorem Ahead.filter (h : Ahead U e entries) {q : Timed V → Bool} (hq : q e = true) : Ahead U e (entries.filter q) := by
  obtain ⟨before, after, rfl, hnodup, hmem⟩ := h
  refine ⟨before.filter q, after.filter q, ?_, hnodup.sublist (filter_sublist.map _),
    fun x hx => hmem x (mem_of_mem_filter hx)⟩
  rw [filter_append, filter_cons_of_pos hq]

theorem Ahead.cons (h : Ahead U e entries) (hU : x.key ∈ U) (hnew : ∀ y ∈ entries, y.key ≠ x.key) :
    Ahead U e (x :: entries) := by
  obtain ⟨before, after, rfl, hnodup, hmem⟩ := h
  refine ⟨x :: before, after, rfl, nodup_cons.mpr ⟨fun hx => ?_, hnodup⟩, forall_mem_cons.mpr ⟨hU, hmem⟩⟩
  obtain ⟨y, hy, hkey⟩ := mem_map.mp hx
  exact hnew y (mem_append_left _ hy) hkey

theorem Ahead.toFront (h : Ahead U e entries) (hU : x.key ∈ U) (hne : e.key ≠ x.key) : Ahead U e (toFront entries x) :=
  (h.filter (by simpa using hne)).cons hU fun y hy => by simpa using (mem_filter.mp hy).2

/-- Fewer than `max` keys can be ahead, so eviction from the back stops short of the entry. -/
theorem Ahead.take (h : Ahead U e entries) (hroom : U.card < max) : Ahead U e (entries.take max) := by
  obtain ⟨before, after, rfl, hnodup, hmem⟩ := h
  have hlen : before.length ≤ U.card := by
    rw [← length_map (·.key), ← toFinset_card_of_nodup hnodup]
    refine Finset.card_le_card fun k hk => ?_
    obtain ⟨x, hx, rfl⟩ := mem_map.mp (mem_toFinset.mp hk)
    exact hmem x hx
  obtain ⟨n, rfl⟩ : ∃ n, max = before.length + (n + 1) := ⟨max - before.length - 1, by omega⟩
  exact ⟨before, after.take n, by rw [take_length_add_append, take_succ_cons], hnodup, hmem⟩

theorem Ahead.step (hfresh : ∀ now ≤ t, p.stale now e.expires = false) (hroom : U.card < max) (he : e.key ∉ U)
    (hquiet : call.Quiet e.key t) (hU : call.key ≠ e.key → call.key ∈ U) (h : Ahead U e entries) :
    Ahead U e (p.step ttl max entries call) := by
  cases call with
  | get key now =>
    obtain rfl | hne := eq_or_ne key e.key
    · simp only [CachePolicy.step, CachePolicy.get, h.find he, hfresh now hquiet]
      exact .first e _
    dsimp only [CachePolicy.step, CachePolicy.get]
    split
    · exact h
    case h_2 x hx =>
      obtain rfl : x.key = key := by simpa using find?_some hx
      split_ifs
      · exact h.filter (by simpa using hne.symm)
      · exact h.toFront (hU hne) hne.symm
  | put key value now swept =>
    dsimp only [CachePolicy.step, CachePolicy.put]
    split_ifs with hrefused hany
    · exact h
    · exact h.toFront (hU hquiet.1) hquiet.1.symm
    · refine ((h.cons (hU hquiet.1) ?_).filter (by simp [hfresh swept hquiet.2])).take hroom
      simpa using hany

theorem Ahead.put {key : GoString} {value : V} {now swept : Int} (hput : p.refuses key value = false)
    (hfresh : p.stale swept (now + ttl) = false) (hroom : U.card < max) :
    Ahead U ⟨key, value, now + ttl⟩ (p.put ttl max entries key value now swept) := by
  simp only [CachePolicy.put, hput, Bool.false_eq_true, if_false]
  split_ifs
  · exact .first _ _
  · exact ((Ahead.first _ _).filter (by simp [hfresh])).take hroom

end

/-- What an accepted `put` stores is served until its time, whatever the cache held before and
whatever is called meanwhile, as long as nothing else is stored under the key and fewer than
`max` other keys are used. -/
theorem stored_answer_served (p : CachePolicy V) (ttl : Int) (max : ℕ) (entries : List (Timed V)) (key : GoString)
    (value : V) (now swept t : Int) (calls : List (CacheCall V)) (hput : p.refuses key value = false)
    (hswept : swept ≤ t) (hquiet : ∀ call ∈ calls, call.Quiet key t) (hfresh : p.stale t (now + ttl) = false)
    (hroom : ((calls.map (·.key)).toFinset.erase key).card < max) :
    (p.get (calls.foldl (p.step ttl max) (p.put ttl max entries key value now swept)) key t).1 = .hit value := by
  have hearlier : ∀ now' ≤ t, p.stale now' (now + ttl) = false := fun now' hle =>
    Bool.eq_false_iff.mpr fun hstale => Bool.eq_false_iff.mp hfresh (p.stale_mono hle hstale)
  have hkey : key ∉ (calls.map (·.key)).toFinset.erase key := Finset.notMem_erase key _
  have hrun : Ahead _ _ (calls.foldl (p.step ttl max) (p.put ttl max entries key value now swept)) :=
    foldlRecOn calls _ (Ahead.put hput (hearlier swept hswept) hroom) fun _ h call hcall =>
      h.step hearlier hroom hkey (hquiet call hcall) fun hne =>
        Finset.mem_erase.mpr ⟨hne, mem_toFinset.mpr (mem_map_of_mem hcall)⟩
  simp [CachePolicy.get, hrun.find hkey, hfresh]

/-- Two other keys are used, with room for three entries. -/
theorem stored_answer_served_three :
    ((queryCache ℕ).get ([.put [2] 8 1 1, .get [1] 2, .put [3] 9 3 3].foldl ((queryCache ℕ).step 5 3)
      ((queryCache ℕ).put 5 3 [] [1] 7 0 0)) [1] 5).1 = .hit 7 :=
  stored_answer_served (queryCache ℕ) 5 3 [] [1] 7 0 0 5 _ rfl (by decide)
    (by simp [CacheCall.Quiet]) rfl (by decide)

/-- The value that the last accepted `put` stored under the key, and when. -/
def lastPut (p : CachePolicy V) (key : GoString) (calls : List (CacheCall V)) : Option (V × Int) :=
  calls.foldl (fun last call => match call with
    | .put k value now _ => if k = key ∧ p.refuses k value = false then some (value, now) else last
    | .get .. => last) none

/-- `x` was touched after the last touch of `y`. -/
def TouchedAfter (touches : List GoString) (x y : GoString) : Prop := ∃ a b, touches = a ++ b ∧ x ∈ b ∧ y ∉ b

/-- The entries are what was put last under their keys, the most recently touched first. -/
structure Recent (p : CachePolicy V) (ttl : Int) (calls : List (CacheCall V)) (touches : List GoString)
    (entries : List (Timed V)) : Prop where
  latest : ∀ e ∈ entries, lastPut p e.key calls = some (e.value, e.expires - ttl)
  ordered : entries.Pairwise fun x y => TouchedAfter touches x.key y.key

section Recency

variable {p : CachePolicy V} {ttl : Int} {max : ℕ} {calls : List (CacheCall V)} {touches : List GoString}
  {entries : List (Timed V)} {e : Timed V}

theorem Recent.sublist {entries' : List (Timed V)} (h : Recent p ttl calls touches entries)
    (hsub : entries'.Sublist entries) :
    Recent p ttl calls touches entries' :=
  ⟨fun e he => h.latest e (hsub.subset he), h.ordered.sublist hsub⟩

/-- An entry is touched. -/
theorem Recent.toFront (h : Recent p ttl calls touches entries) (call : CacheCall V)
    (he : lastPut p e.key (calls ++ [call]) = some (e.value, e.expires - ttl))
    (hother : ∀ k, k ≠ e.key → lastPut p k (calls ++ [call]) = lastPut p k calls) :
    Recent p ttl (calls ++ [call]) (touches ++ [e.key]) (toFront entries e) := by
  have hkept : ∀ x ∈ entries.filter (·.key ≠ e.key), x ∈ entries ∧ x.key ≠ e.key := fun x hx => by simpa using hx
  refine ⟨forall_mem_cons.mpr ⟨he, fun x hx => ?_⟩, pairwise_cons.mpr ⟨fun x hx => ?_, ?_⟩⟩
  · rw [hother _ (hkept x hx).2]
    exact h.latest x (hkept x hx).1
  · exact ⟨touches, [e.key], rfl, by simp, by simpa using (hkept x hx).2⟩
  · refine (h.ordered.sublist filter_sublist).imp_of_mem fun {x y} _ hy => ?_
    rintro ⟨a, b, rfl, hx, hnot⟩
    exact ⟨a, b ++ [e.key], append_assoc .., mem_append_left _ hx, by simpa using ⟨hnot, (hkept y hy).2⟩⟩

theorem toFront_eq_cons (h : entries.any (·.key = e.key) = false) : toFront entries e = e :: entries := by
  rw [toFront, filter_eq_self.mpr]
  simpa using h

theorem Recent.refused (h : Recent p ttl calls touches entries) {key : GoString} {value : V} {now swept : Int}
    (hput : p.refuses key value = true) : Recent p ttl (calls ++ [.put key value now swept]) touches entries := by
  refine ⟨fun e he => ?_, h.ordered⟩
  rw [← h.latest e he]
  simp [lastPut, hput]

theorem Recent.put (h : Recent p ttl calls touches entries) {key : GoString} {value : V} {now swept : Int}
    (hput : p.refuses key value = false) :
    Recent p ttl (calls ++ [.put key value now swept]) (touches ++ [key])
    (p.put ttl max entries key value now swept) := by
  have hlast : ∀ k, lastPut p k (calls ++ [.put key value now swept]) =
      if key = k then some (value, now) else lastPut p k calls := fun k => by simp [lastPut, hput]
  have hfront := h.toFront (e := ⟨key, value, now + ttl⟩) (.put key value now swept)
    (by rw [hlast, if_pos rfl, Int.add_sub_cancel]) fun k hne => by rw [hlast, if_neg hne.symm]
  simp only [CachePolicy.put, hput, Bool.false_eq_true, if_false]
  split_ifs with hany
  · exact hfront
  · rw [toFront_eq_cons (Bool.eq_false_iff.mpr hany)] at hfront
    exact hfront.sublist ((take_sublist _ _).trans filter_sublist)

theorem Recent.get (h : Recent p ttl calls touches entries) (key : GoString) (now : Int) :
    Recent p ttl (calls ++ [.get key now]) (touches ++ (p.get entries key now).1.touched key)
      (p.get entries key now).2 := by
  have hlast : ∀ k, lastPut p k (calls ++ [.get key now]) = lastPut p k calls := fun k => by simp [lastPut]
  have hsame : Recent p ttl (calls ++ [.get key now]) touches entries :=
    ⟨fun e he => by rw [hlast, h.latest e he], h.ordered⟩
  dsimp only [CachePolicy.get]
  split
  · simpa [CacheEvent.touched] using hsame
  case h_2 e he =>
    obtain rfl : e.key = key := by simpa using find?_some he
    split_ifs
    · simpa [CacheEvent.touched] using hsame.sublist filter_sublist
    · exact h.toFront _ (by rw [hlast, h.latest e (mem_of_find?_eq_some he)]) fun k _ => hlast k

theorem Recent.hit (h : Recent p ttl calls touches entries) {key : GoString} {now : Int} {value : V}
    (hhit : (p.get entries key now).1 = .hit value) :
    ∃ t, lastPut p key calls = some (value, t) ∧ p.stale now (t + ttl) = false := by
  dsimp only [CachePolicy.get] at hhit
  split at hhit
  · cases hhit
  case h_2 e he =>
    obtain rfl : e.key = key := by simpa using find?_some he
    split_ifs at hhit with hstale
    cases hhit
    refine ⟨e.expires - ttl, h.latest e (mem_of_find?_eq_some he), ?_⟩
    rw [Int.sub_add_cancel]
    exact Bool.eq_false_iff.mpr hstale

end Recency

/-- A cache as the code keeps it: the elements of the recency list, most recent first, what each element holds, and the
map from keys to elements. -/
structure LinkedCache (V : Type) where
  ll : List ℕ
  element : ℕ → Timed V
  items : GoMap GoString ℕ
  next : ℕ

namespace LinkedCache

/-- A new cache; an element holds `blank` before it is made. -/
def new (blank : Timed V) : LinkedCache V := ⟨[], fun _ => blank, ∅, 0⟩

section Model

variable (p : CachePolicy V) (inPlace : Bool) (ttl : Int) (max : ℕ) (c : LinkedCache V)

def entries : List (Timed V) := c.ll.map c.element

def moveToFront (el : ℕ) : LinkedCache V := { c with ll := if el ∈ c.ll then el :: c.ll.erase el else c.ll }

def remove (el : ℕ) (key : GoString) : LinkedCache V := { c with ll := c.ll.erase el, items := c.items.erase key }

def removeElement (el : ℕ) : LinkedCache V := c.remove el (c.element el).key

-- The score cache works `inPlace`: it changes what an element holds, deletes the key it was asked for and counts its
-- elements. The answer cache gives an element another entry, deletes the key that it holds and counts its keys.

def get (key : GoString) (now : Int) : CacheEvent V × LinkedCache V :=
  match c.items.lookup key with
  | none => (.miss, c)
  | some el =>
    if p.stale now (c.element el).expires then (.stale, if inPlace then c.remove el key else c.removeElement el)
    else (.hit (c.element el).value, c.moveToFront el)

def sweep (now : Int) : LinkedCache V :=
  c.ll.reverse.foldl (fun c el => if p.stale now (c.element el).expires then c.removeElement el else c) c

/-- One turn of the loop that evicts. -/
def evict : LinkedCache V :=
  if max < (if inPlace then c.ll.length else c.items.keys.card) then c.ll.getLast?.elim c c.removeElement else c

def push (e : Timed V) : LinkedCache V :=
  ⟨c.next :: c.ll, Function.update c.element c.next e, c.items.insert e.key c.next, c.next + 1⟩

def put (key : GoString) (value : V) (now swept : Int) : LinkedCache V :=
  if p.refuses key value then c
  else match c.items.lookup key with
    | some el =>
      let held := if inPlace then (c.element el).key else key
      { c with element := Function.update c.element el ⟨held, value, now + ttl⟩ }.moveToFront el
    | none =>
      let c := c.push ⟨key, value, now + ttl⟩
      let c := if p.sweeps then c.sweep p swept else c
      (evict inPlace max)^[c.ll.length] c

def step : CacheCall V → LinkedCache V
  | .get key now => (c.get p inPlace key now).2
  | .put key value now swept => c.put p inPlace ttl max key value now swept

end Model

/-- The map has the keys of the list's elements and no others. -/
structure Agrees (c : LinkedCache V) : Prop where
  nodup : c.ll.Nodup
  made : ∀ el ∈ c.ll, el < c.next
  mapped : ∀ key el, c.items.lookup key = some el ↔ el ∈ c.ll ∧ (c.element el).key = key

section Agreement

variable {p : CachePolicy V} {inPlace : Bool} {max el : ℕ} {c : LinkedCache V} {e : Timed V} (h : c.Agrees)
include h

theorem Agrees.eq_of_key {x y : ℕ} (hx : x ∈ c.ll) (hy : y ∈ c.ll) (hkey : (c.element x).key = (c.element y).key) :
    x = y :=
  Option.some.inj (((h.mapped _ x).mpr ⟨hx, hkey⟩).symm.trans ((h.mapped _ y).mpr ⟨hy, rfl⟩))

/-- What is left of the list without an element. -/
theorem Agrees.entries_erase (hel : el ∈ c.ll) :
    (c.ll.erase el).map c.element = c.entries.filter (·.key ≠ (c.element el).key) := by
  rw [entries, filter_map, h.nodup.erase_eq_filter]
  refine congrArg _ (filter_congr fun x hx => ?_)
  have hiff : x = el ↔ (c.element x).key = (c.element el).key := ⟨fun heq => heq ▸ rfl, h.eq_of_key hx hel⟩
  by_cases hx : x = el
  · simp [hx]
  · simp [hx, mt hiff.mpr hx]

theorem Agrees.nodup_keys : (c.entries.map (·.key)).Nodup := by
  rw [entries, map_map]
  exact h.nodup.map_on fun x hx y hy => h.eq_of_key hx hy

theorem Agrees.find (key : GoString) : c.entries.find? (·.key = key) = (c.items.lookup key).map c.element := by
  cases hkey : c.items.lookup key with
  | none =>
    refine GoMap.find?_key_eq_none fun hmem => ?_
    rw [entries, map_map, mem_map] at hmem
    obtain ⟨el, hel⟩ := hmem
    cases hkey.symm.trans ((h.mapped key el).mpr hel)
  | some el =>
    obtain ⟨hel, rfl⟩ := (h.mapped key el).mp hkey
    exact GoMap.find?_key_eq_some h.nodup_keys (mem_map_of_mem hel)

theorem Agrees.removeElement (hel : el ∈ c.ll) : (c.removeElement el).Agrees := by
  refine ⟨h.nodup.erase el, fun x hx => h.made x (mem_of_mem_erase hx), fun key x => ?_⟩
  change (c.items.erase (c.element el).key).lookup key = some x ↔ x ∈ c.ll.erase el ∧ (c.element x).key = key
  rw [GoMap.lookup_erase_eq, h.nodup.mem_erase_iff]
  split_ifs with hkey
  · refine iff_of_false (by simp) ?_
    rintro ⟨⟨hne, hx⟩, heq⟩
    exact hne (h.eq_of_key hx hel (heq.trans hkey))
  · rw [h.mapped]
    refine ⟨fun hx => ⟨⟨fun heq => hkey (heq ▸ hx.2.symm), hx.1⟩, hx.2⟩, fun hx => ⟨hx.1.2, hx.2⟩⟩

/-- An element is moved to the front with an entry for its key. -/
theorem Agrees.replace (hel : el ∈ c.ll) (he : e.key = (c.element el).key) :
    ({ c with element := Function.update c.element el e }.moveToFront el).Agrees ∧
      ({ c with element := Function.update c.element el e }.moveToFront el).entries = toFront c.entries e := by
  have hkey : ∀ x, (Function.update c.element el e x).key = (c.element x).key := by
    intro x
    by_cases hx : x = el
    · rw [hx, Function.update_self, he]
    · rw [Function.update_of_ne hx]
  have hll : (if el ∈ c.ll then el :: c.ll.erase el else c.ll) = el :: c.ll.erase el := if_pos hel
  have hperm : (el :: c.ll.erase el).Perm c.ll := (perm_cons_erase hel).symm
  constructor
  · refine ⟨?_, ?_, ?_⟩ <;> dsimp only [moveToFront] <;> rw [hll]
    · exact hperm.nodup_iff.mpr h.nodup
    · exact fun x hx => h.made x (hperm.mem_iff.mp hx)
    · intro key x
      rw [h.mapped, hperm.mem_iff, hkey]
  · rw [toFront, he, ← h.entries_erase hel, entries]
    dsimp only [moveToFront]
    rw [hll, map_cons, Function.update_self]
    refine congrArg _ (map_congr_left fun x hx => Function.update_of_ne ?_ _ _)
    exact (h.nodup.mem_erase_iff.mp hx).1

theorem Agrees.moveToFront (hel : el ∈ c.ll) :
    (c.moveToFront el).Agrees ∧ (c.moveToFront el).entries = toFront c.entries (c.element el) := by
  simpa only [Function.update_eq_self] using h.replace hel rfl

theorem Agrees.push (hnew : c.items.lookup e.key = none) : (c.push e).Agrees ∧ (c.push e).entries = e :: c.entries := by
  have hfresh : c.next ∉ c.ll := fun hmem => (h.made _ hmem).false
  have hother : ∀ x ∈ c.ll, Function.update c.element c.next e x = c.element x := fun x hx =>
    Function.update_of_ne (ne_of_mem_of_not_mem hx hfresh) _ _
  refine ⟨⟨nodup_cons.mpr ⟨hfresh, h.nodup⟩, forall_mem_cons.mpr ⟨Nat.lt_succ_self _, fun x hx =>
    (h.made x hx).trans (Nat.lt_succ_self _)⟩, fun key x => ?_⟩, ?_⟩
  · change (c.items.insert e.key c.next).lookup key = some x ↔
      x ∈ c.next :: c.ll ∧ (Function.update c.element c.next e x).key = key
    rw [GoMap.lookup_insert_eq, mem_cons]
    split_ifs with hkey
    · subst hkey
      refine ⟨fun hx => ?_, ?_⟩
      · cases hx
        exact ⟨.inl rfl, by rw [Function.update_self]⟩
      · rintro ⟨rfl | hx, heq⟩
        · rfl
        · rw [hother x hx] at heq
          cases hnew.symm.trans ((h.mapped _ x).mpr ⟨hx, heq⟩)
    · rw [h.mapped]
      refine ⟨fun hx => ⟨.inr hx.1, by rw [hother x hx.1, hx.2]⟩, ?_⟩
      rintro ⟨rfl | hx, heq⟩
      · rw [Function.update_self] at heq
        exact absurd heq.symm hkey
      · exact ⟨hx, by rw [← hother x hx, heq]⟩
  · change Function.update c.element c.next e c.next :: c.ll.map (Function.update c.element c.next e) = _
    rw [Function.update_self]
    exact congrArg _ (map_congr_left hother)

theorem Agrees.card_keys : c.items.keys.card = c.ll.length := by
  have hkeys : c.items.keys = (c.entries.map (·.key)).toFinset := by
    ext key
    rw [GoMap.mem_keys_iff, mem_toFinset, entries, map_map, mem_map]
    exact exists_congr fun el => h.mapped key el
  rw [hkeys, toFinset_card_of_nodup h.nodup_keys, entries, length_map, length_map]

/-- Stale elements are removed from the back; those in front of them stay for their turn. -/
theorem Agrees.foldl_sweep (now : Int) {els : List ℕ} (hnodup : els.Nodup) (hmem : ∀ el ∈ els, el ∈ c.ll) :
    let swept := els.foldl (fun c el => if p.stale now (c.element el).expires then c.removeElement el else c) c
    swept.Agrees ∧ swept.element = c.element ∧
      swept.ll = c.ll.filter fun el => !(decide (el ∈ els) && p.stale now (c.element el).expires) := by
  induction els generalizing c with
  | nil => exact ⟨h, rfl, by simp⟩
  | cons el els ih =>
    rw [nodup_cons] at hnodup
    rw [forall_mem_cons] at hmem
    rw [foldl_cons]
    split_ifs with hstale
    · obtain ⟨hagrees, helement, hll⟩ := ih (h.removeElement hmem.1) hnodup.2 fun x hx =>
        (mem_erase_of_ne (ne_of_mem_of_not_mem hx hnodup.1)).mpr (hmem.2 x hx)
      refine ⟨hagrees, helement, hll.trans ?_⟩
      change (c.ll.erase el).filter _ = _
      rw [h.nodup.erase_eq_filter, filter_filter]
      refine filter_congr fun x _ => ?_
      by_cases hx : x = el
      · simp [hx, hstale]
      · simp [hx, LinkedCache.removeElement, remove]
    · obtain ⟨hagrees, helement, hll⟩ := ih h hnodup.2 hmem.2
      refine ⟨hagrees, helement, hll.trans (filter_congr fun x _ => ?_)⟩
      by_cases hx : x = el
      · simp [hx, hstale]
      · simp [hx]

theorem Agrees.sweep (now : Int) : (c.sweep p now).Agrees ∧
    (c.sweep p now).entries = c.entries.filter fun e => !p.stale now e.expires := by
  obtain ⟨hagrees, helement, hll⟩ := h.foldl_sweep (p := p) now (nodup_reverse.mpr h.nodup)
    fun el hel => mem_reverse.mp hel
  refine ⟨hagrees, ?_⟩
  rw [entries, LinkedCache.sweep, helement, hll, entries, filter_map]
  refine congrArg _ (filter_congr fun el hel => ?_)
  simp [hel]

theorem Agrees.evict (inPlace : Bool) (max : ℕ) : (c.evict inPlace max).Agrees ∧
    (c.evict inPlace max).entries = if max < c.entries.length then c.entries.dropLast else c.entries := by
  have hsize : (if inPlace then c.ll.length else c.items.keys.card) = c.ll.length := by
    rw [h.card_keys, ite_self]
  have hlen : c.entries.length = c.ll.length := length_map _
  rw [LinkedCache.evict, hsize, hlen]
  split_ifs with hover
  · rcases eq_nil_or_concat c.ll with hll | ⟨rest, el, hll⟩
    · rw [hll] at hover
      cases hover
    · rw [concat_eq_append] at hll
      have hel : el ∈ c.ll := hll ▸ mem_concat_self
      have herase : c.ll.erase el = c.ll.dropLast := by
        have hnot : el ∉ rest := fun hmem => by
          have hdis := h.nodup
          rw [hll] at hdis
          exact (nodup_append.mp hdis).2.2 el hmem el (by simp) rfl
        rw [hll, erase_append_right _ hnot, dropLast_concat]
        simp
      have hlast : c.ll.getLast? = some el := by rw [hll, getLast?_concat]
      rw [hlast]
      refine ⟨h.removeElement hel, ?_⟩
      change (c.ll.erase el).map c.element = _
      rw [herase, map_dropLast]
      rfl
  · exact ⟨h, rfl⟩

theorem Agrees.evictAll {n : ℕ} (hn : c.ll.length ≤ max + n) : ((LinkedCache.evict inPlace max)^[n] c).Agrees ∧
    ((LinkedCache.evict inPlace max)^[n] c).entries = c.entries.take max := by
  induction n generalizing c with
  | zero => exact ⟨h, (take_of_length_le ((length_map _).trans_le hn)).symm⟩
  | succ n ih =>
    obtain ⟨hagrees, hentries⟩ := h.evict inPlace max
    have hlen : (c.evict inPlace max).entries.length = (c.evict inPlace max).ll.length := length_map _
    have hlen' : c.entries.length = c.ll.length := length_map _
    rw [Function.iterate_succ_apply]
    rw [hentries] at hlen
    split_ifs at hentries hlen with hover
    · rw [length_dropLast] at hlen
      obtain ⟨hfinal, htake⟩ := ih hagrees (by omega)
      exact ⟨hfinal, by rw [htake, hentries, dropLast_eq_take, take_take, Nat.min_eq_left (by omega)]⟩
    · obtain ⟨hfinal, htake⟩ := ih hagrees (by omega)
      exact ⟨hfinal, by rw [htake, hentries]⟩

theorem Agrees.store (hnew : c.items.lookup e.key = none) (swept : Int) :
    let c' := if p.sweeps then (c.push e).sweep p swept else c.push e
    ((LinkedCache.evict inPlace max)^[c'.ll.length] c').Agrees ∧
      ((LinkedCache.evict inPlace max)^[c'.ll.length] c').entries =
      ((e :: c.entries).filter fun x => !(p.sweeps && p.stale swept x.expires)).take max := by
  intro c'
  obtain ⟨hpush, hentries⟩ := h.push hnew
  have hc' : c'.Agrees ∧ c'.entries = (e :: c.entries).filter fun x => !(p.sweeps && p.stale swept x.expires) := by
    cases hsweeps : p.sweeps with
    | false => simpa [c', hsweeps] using And.intro hpush hentries
    | true => simpa [c', hsweeps, ← hentries] using hpush.sweep (p := p) swept
  rw [← hc'.2]
  exact hc'.1.evictAll (Nat.le_add_left ..)

theorem Agrees.get (inPlace : Bool) (key : GoString) (now : Int) : (c.get p inPlace key now).2.Agrees ∧
    (c.get p inPlace key now).1 = (p.get c.entries key now).1 ∧
      (c.get p inPlace key now).2.entries = (p.get c.entries key now).2 := by
  have hfind := h.find key
  simp only [LinkedCache.get, CachePolicy.get]
  cases hkey : c.items.lookup key with
  | none =>
    rw [hkey] at hfind
    rw [hfind]
    exact ⟨h, rfl, rfl⟩
  | some el =>
    obtain ⟨hel, rfl⟩ := (h.mapped key el).mp hkey
    rw [hkey] at hfind
    simp only [hfind, Option.map_some]
    split_ifs
    · exact ⟨h.removeElement hel, rfl, h.entries_erase hel⟩
    · exact ⟨h.removeElement hel, rfl, h.entries_erase hel⟩
    · exact ⟨(h.moveToFront hel).1, rfl, (h.moveToFront hel).2⟩

theorem Agrees.isSome_lookup (key : GoString) : (c.items.lookup key).isSome = c.entries.any (·.key = key) := by
  rw [Bool.eq_iff_iff, any_eq_true, ← find?_isSome, h.find, Option.isSome_map]

/-- One call keeps the map and the list in agreement, and does to the entries what the list model does. -/
theorem Agrees.step (inPlace : Bool) (ttl : Int) (max : ℕ) (call : CacheCall V) :
    (c.step p inPlace ttl max call).Agrees ∧
    (c.step p inPlace ttl max call).entries = p.step ttl max c.entries call := by
  cases call with
  | get key now => exact ⟨(h.get inPlace key now).1, (h.get inPlace key now).2.2⟩
  | put key value now swept =>
    simp only [LinkedCache.step, CachePolicy.step, LinkedCache.put, CachePolicy.put]
    by_cases hrefused : p.refuses key value = true
    · simp only [if_pos hrefused]
      exact ⟨h, trivial⟩
    simp only [if_neg hrefused]
    rw [← h.isSome_lookup key]
    cases hkey : c.items.lookup key with
    | none => exact h.store hkey swept
    | some el =>
      obtain ⟨hel, rfl⟩ := (h.mapped key el).mp hkey
      simp only [ite_self]
      exact h.replace hel rfl

end Agreement

/-- The keys that a call touches: a value that is read, or stored. -/
def touch (p : CachePolicy V) (inPlace : Bool) (c : LinkedCache V) : CacheCall V → List GoString
  | .get key now => (c.get p inPlace key now).1.touched key
  | .put key value _ _ => if p.refuses key value then [] else [key]

/-- A run from a new cache, with the keys touched in it. -/
def run (p : CachePolicy V) (inPlace : Bool) (ttl : Int) (max : ℕ) (blank : Timed V) (calls : List (CacheCall V)) :
    LinkedCache V × List GoString :=
  calls.foldl (fun s call => (s.1.step p inPlace ttl max call, s.2 ++ s.1.touch p inPlace call)) (new blank, [])

end LinkedCache

end CodeMemory.Hosted
