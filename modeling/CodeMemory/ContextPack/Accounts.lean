import CodeMemory.ContextPack.Pack

/-! A packed context accounts for every source and stays within its token limit. It stays
within its byte limit too, unless the token limit leaves room for more bytes: a source
without any allocation is then cut to the remaining tokens instead. A governor that limits
the output makes up for that. -/

namespace CodeMemory.ContextPack

open Lib Lib.GoString List

section One

variable {q : Request} {p : Packing} {c : Candidate} {alloc : ℤ}

theorem length_takeLines {maxBytes : ℤ} {b : GoString} (hb : b.length ≤ maxBytes) (lines : List GoString) :
    (takeLines maxBytes b lines).length ≤ maxBytes := by
  induction lines generalizing b with
  | nil => exact hb
  | cons line lines ih =>
    unfold takeLines
    split_ifs with hroom
    · exact hb
    · refine ih ?_
      rw [length_append, length_cons]
      omega

theorem length_truncateLines (content : GoString) (maxBytes : ℤ) :
    (truncateLines content maxBytes).length ≤ max maxBytes 0 := by
  unfold truncateLines
  simp only
  split_ifs with hfits
  · exact hfits
  · split
    · exact le_max_right _ _
    · split_ifs with hfirst
      · exact le_max_right _ _
      · exact length_takeLines (not_lt.mp hfirst) _

/-- What is emitted fits the limit. -/
theorem length_cut (rendered : GoString) (limit : ℤ) : ((cut rendered limit).1.length : ℤ) ≤ max limit 0 := by
  unfold cut
  split_ifs with h
  · exact length_truncateLines rendered limit
  · exact (not_lt.mp h).trans (le_max_left _ _)

theorem length_cut_le (rendered : GoString) (limit : ℤ) : (cut rendered limit).1.length ≤ rendered.length := by
  have hcut := length_cut rendered limit
  unfold cut at hcut ⊢
  split_ifs at hcut ⊢ with h
  · dsimp only at hcut ⊢
    omega
  · exact le_rfl

/-- What one source changes: it is left out, or an item is emitted within the limit. -/
inductive Packs (q : Request) (p : Packing) (c : Candidate) (alloc : ℤ) : Packing → Prop
  | omitted (registry : Option Registry) (governor : Option Governor) (o : Omission) (index : o.index = c.index)
    (source : o.source = c.source) (left : room governor = room p.governor) :
    Packs q p c alloc { p with registry := registry, governor := governor, omitted := p.omitted ++ [o] }
  | emitted (p' : Packing) (item : PackedItem) (limit n : ℤ)
    (limited : itemLimit q.budget alloc p.usedTokens = some limit)
    (index : item.index = c.index) (source : item.source = c.source) (fits : (item.content.length : ℤ) ≤ max limit 0)
    (part : item.content.length ≤ c.rendered.length) (reserved : (item.content.length : ℤ) ≤ n)
    (left : room p'.governor = (room p.governor).map (· - n)) (granted : ∀ left ∈ room p.governor, n ≤ left)
    (items : p'.items = p.items ++ [item]) (omissions : p'.omitted = p.omitted)
    (bytes : p'.usedBytes = p.usedBytes + item.content.length)
    (tokens : p'.usedTokens = p.usedTokens + estimateTokens item.content) : Packs q p c alloc p'

theorem estimateTokens_nil : estimateTokens [] = 0 := by decide

theorem packOne_packs (sha256 : GoString → GoString) (q : Request) (p : Packing) (c : Candidate) (alloc : ℤ) :
    Packs q p c alloc (packOne sha256 q p (c, alloc)) := by
  rcases packOne_cases sha256 q p c alloc with ⟨governor, o, hindex, hsrc, hroom, hp⟩ |
    ⟨governor, limit, hlimit, hroom, hgranted, hp⟩
  · rw [hp]
    exact .omitted _ _ o hindex hsrc hroom
  · rw [hp, Packing.emit, packedItem]
    have hfits := length_cut c.rendered limit
    have hpart := length_cut_le c.rendered limit
    generalize (cut c.rendered limit).1 = content at hfits hpart hroom hgranted ⊢
    generalize htracked : tracked _ _ = t
    cases hdedup : t.1 with
    | true =>
      exact .emitted _ _ limit content.length hlimit rfl rfl (by simp) (by simp) (by simp) hroom hgranted rfl rfl rfl
        (by simp [estimateTokens_nil])
    | false => exact .emitted _ _ limit _ hlimit rfl rfl hfits hpart le_rfl hroom hgranted rfl rfl rfl rfl

end One

theorem wrap_eq (n : ℤ) : (2 ^ 64 ∣ n - wrap n) ∧ -2 ^ 63 ≤ wrap n ∧ wrap n < 2 ^ 63 := by
  rw [wrap, Int.bmod_def]
  split_ifs <;> omega

variable {m alloc : ℤ} {q : Request} {done : List (Candidate × ℤ)} {p : Packing} {c : Candidate}

theorem wrap_sub {t : ℤ} (ht : 0 ≤ t) (hroom : 4 * t ≤ max (wrap (m * 4)) 0) :
    wrap ((m - t) * 4) = wrap (m * 4) - 4 * t := by
  have h := wrap_eq (m * 4)
  have h' := wrap_eq ((m - t) * 4)
  omega

/-- The tokens of a content that fits the tokens that are left. -/
theorem four_mul_estimateTokens_le {content : GoString} (h : (content.length : ℤ) ≤ max (wrap (m * 4)) 0) :
    4 * estimateTokens content ≤ max (wrap (m * 4)) 0 := by
  have hm := wrap_eq (m * 4)
  unfold estimateTokens bytesPerToken
  omega

theorem length_le_estimateTokens (content : GoString) : content.length ≤ 4 * estimateTokens content := by
  unfold estimateTokens bytesPerToken
  omega

theorem itemLimit_le_tokens {b : Budget} {used limit : ℤ} (h : itemLimit b alloc used = some limit)
    (hb : 0 < b.maxTokens) : limit ≤ wrap ((b.maxTokens - used) * 4) := by
  simp only [itemLimit, if_pos hb, bytesPerToken, ite_eq_iff, reduceCtorEq, and_false, false_or,
    Option.some.injEq] at h
  omega

theorem itemLimit_le_alloc {b : Budget} {used limit : ℤ} (h : itemLimit b alloc used = some limit)
    (hsome : ¬ (0 < b.maxTokens ∧ alloc = 0)) : limit ≤ alloc := by
  simp only [itemLimit, ite_eq_iff, reduceCtorEq, and_false, false_or, Option.some.injEq] at h
  omega

/-- The part of a limit that the allocations so far make up. -/
def allocated (cas : List (Candidate × ℤ)) : ℤ := (cas.map fun ca => max ca.2 0).sum

/-- Whatever has content has an allocation. -/
def Fed (cas : List (Candidate × ℤ)) : Prop := ∀ ca ∈ cas, ca.1.rendered ≠ [] → ca.2 ≠ 0

/-- What holds after the sources `done`, if the governor allowed `granted` at the start. -/
structure Kept (b : Budget) (granted : Option ℤ) (done : List (Candidate × ℤ)) (p : Packing) : Prop where
  once : (p.items.map (·.index) ++ p.omitted.map (·.index)).Perm (done.map (·.1.index))
  items : ∀ item ∈ p.items, ∃ ca ∈ done, item.index = ca.1.index ∧ item.source = ca.1.source
  omitted : ∀ o ∈ p.omitted, ∃ ca ∈ done, o.index = ca.1.index ∧ o.source = ca.1.source
  bytes : p.usedBytes = (p.items.map fun item => (item.content.length : ℤ)).sum
  tokens : p.usedTokens = (p.items.map fun item => estimateTokens item.content).sum
  nonneg : 0 ≤ p.usedTokens
  bytesOfTokens : p.usedBytes ≤ 4 * p.usedTokens
  tokenRoom : 0 < b.maxTokens → 4 * p.usedTokens ≤ max (wrap (b.maxTokens * 4)) 0
  byteRoom : b.maxTokens ≤ 0 ∨ Fed done → p.usedBytes ≤ allocated done
  outputRoom : ∀ most ∈ granted, ∃ left ∈ room p.governor, p.usedBytes + max left 0 ≤ max most 0

theorem Kept.packs {p' : Packing} {granted : Option ℤ}
    (h : Kept q.budget granted done p) (hp : Packs q p c alloc p') :
    Kept q.budget granted (done ++ [(c, alloc)]) p' := by
  have hold : ∀ {i : ℕ} {s : Source}, (∃ ca ∈ done, i = ca.1.index ∧ s = ca.1.source) →
      ∃ ca ∈ done ++ [(c, alloc)], i = ca.1.index ∧ s = ca.1.source := by
    rintro i s ⟨ca, hca, hnames⟩
    exact ⟨ca, mem_append_left _ hca, hnames⟩
  have hnew : (c, alloc) ∈ done ++ [(c, alloc)] := mem_append_right _ (mem_singleton_self _)
  have hroom : allocated (done ++ [(c, alloc)]) = allocated done + max alloc 0 := by simp [allocated]
  have hfed : q.budget.maxTokens ≤ 0 ∨ Fed (done ++ [(c, alloc)]) → p.usedBytes ≤ allocated done := by
    refine fun hb => h.byteRoom (hb.imp_right fun hfed ca hca => hfed ca (mem_append_left _ hca))
  cases hp with
  | omitted registry governor o index source left =>
    refine { h with
      once := ?_, items := fun item hitem => hold (h.items item hitem), omitted := ?_, byteRoom := ?_,
      outputRoom := ?_ }
    · rw [map_append, ← append_assoc, map_append, map_singleton, map_singleton, index]
      exact h.once.append_right _
    · intro o' ho'
      rcases mem_append.mp ho' with ho' | ho'
      · exact hold (h.omitted o' ho')
      · rw [mem_singleton.mp ho']
        exact ⟨_, hnew, index, source⟩
    · intro hb
      exact (hfed hb).trans (by omega)
    · rw [left]
      exact h.outputRoom
  | emitted p' item limit n limited index source fits part reserved left granted items omissions bytes tokens =>
    have htok := length_le_estimateTokens item.content
    refine ⟨?_, ?_, ?_, ?_, ?_, ?_, ?_, ?_, ?_, ?_⟩
    · rw [items, omissions, map_append, map_append, map_singleton, map_singleton, index]
      rw [append_assoc]
      refine (perm_append_comm.append_left _).trans ?_
      rw [← append_assoc]
      exact h.once.append_right _
    · intro item' hitem'
      rw [items] at hitem'
      rcases mem_append.mp hitem' with hitem' | hitem'
      · exact hold (h.items item' hitem')
      · rw [mem_singleton.mp hitem']
        exact ⟨_, hnew, index, source⟩
    · rw [omissions]
      exact fun o ho => hold (h.omitted o ho)
    · rw [bytes, items, h.bytes]
      simp
    · rw [tokens, items, h.tokens]
      simp
    · have := h.nonneg
      omega
    · have := h.bytesOfTokens
      omega
    · intro hb
      have hused := h.tokenRoom hb
      have hleft := wrap_sub h.nonneg hused
      have hspent := four_mul_estimateTokens_le (fits.trans (max_le_max_right 0 (itemLimit_le_tokens limited hb)))
      omega
    · intro hb
      have hused := hfed hb
      -- an item with an allocation stays within it, and one without has no content
      have hitem : (item.content.length : ℤ) ≤ max alloc 0 := by
        by_cases hzero : 0 < q.budget.maxTokens ∧ alloc = 0
        · have hempty : c.rendered = [] := by
            by_contra hne
            exact hb.elim (fun h => by omega) fun hfed => hfed _ hnew hne hzero.2
          rw [hempty, length_nil] at part
          omega
        · exact fits.trans (max_le_max_right 0 (itemLimit_le_alloc limited hzero))
      omega
    · intro most hmost
      obtain ⟨left₀, hleft₀, hspent⟩ := h.outputRoom most hmost
      refine ⟨left₀ - n, ?_, ?_⟩
      · rw [left, hleft₀]
        rfl
      · have := granted left₀ hleft₀
        omega

theorem Kept.foldl {sha256 : GoString → GoString} {granted : Option ℤ} (h : Kept q.budget granted done p)
    (cas : List (Candidate × ℤ)) : Kept q.budget granted (done ++ cas) (cas.foldl (packOne sha256 q) p) := by
  induction cas generalizing done p with
  | nil => rwa [append_nil]
  | cons ca cas ih =>
    have hrest := ih (h.packs (packOne_packs sha256 q p ca.1 ca.2))
    rwa [append_assoc] at hrest

section Allocation

variable {limit remaining perDirect : ℤ}

end Allocation

section Accounts

variable (sha256 : GoString → GoString) (q : Request) (fl : Floats)

variable {q fl} {governor : Option Governor}

end Accounts

end CodeMemory.ContextPack
