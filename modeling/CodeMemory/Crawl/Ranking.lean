import CodeMemory.Lib.Order

/-! The end of the fusion pipeline. Candidates have been ranked, and the files that
define a queried identifier are to stay among the first `topK` of them. -/

namespace CodeMemory.Crawl

open Lib Lib.GoString List

/-- A `fusedCandidate`, without the signals behind its fused score and without `Div`, which
nothing reads. -/
structure FusedCandidate (S : Type) where
  path : GoString
  defines : Bool
  fused : S
  deriving DecidableEq

variable {S : Type}

abbrev Candidates (S : Type) := List (FusedCandidate S)

abbrev paths (cs : Candidates S) : List GoString := cs.map FusedCandidate.path

/-- One round of the second pass: a floor file that has not been seen takes the place of
the last candidate picked. -/
def bump (ranked : Candidates S) (topK : ℕ) (picked : Candidates S × List GoString)
    (f : GoString) : Candidates S × List GoString :=
  if f ∈ picked.2 then picked
  else
    match ranked.find? (fun c => c.path = f) with
    | none => picked
    | some c => ((if topK ≤ picked.1.length then picked.1.take (topK - 1) else picked.1) ++ [c], f :: picked.2)

/-- The order of the last sort: score, then definitions, then path. -/
def ranksBefore [BEq S] [LT S] [DecidableLT S] (a b : FusedCandidate S) : Bool :=
  if a.fused != b.fused then b.fused < a.fused
  else if a.defines ≠ b.defines then a.defines
  else !strLe b.path a.path

def floorLimit (candidates : ℕ) (topK : ℤ) : ℕ :=
  if topK ≤ 0 ∨ (candidates : ℤ) < topK then candidates else topK.toNat

def enforceFloor [BEq S] [LT S] [DecidableLT S] (ranked : Candidates S) (floorFiles : List GoString)
    (topK : ℤ) : Candidates S :=
  let k := floorLimit ranked.length topK
  let top := ranked.take k
  if floorFiles = [] then top
  else (floorFiles.foldl (bump ranked k) (top, paths top)).1.insertionSort
    (fun a b => ranksBefore b a = false)

/-- The floor files are there, the result is full and has no path twice, and whatever
else is in it was ranked high enough. -/
structure KeepsFloor (ranked : Candidates S) (floorFiles : List GoString) (topK : ℤ)
    (result : Candidates S) : Prop where
  floor : ∀ f ∈ floorFiles, ∃ c ∈ result, c.path = f
  full : (result.length : ℤ) = min topK ranked.length
  nodup : (paths result).Nodup
  best : ∀ c ∈ result, c.path ∉ floorFiles → c ∈ ranked.take topK.toNat

/-- At most one floor file is ranked too low, and then the last place that counts is not
that of another. -/
def FloorFits (ranked : Candidates S) (floorFiles : List GoString) (topK : ℤ) : Prop :=
  let top := ranked.take topK.toNat
  ∀ f ∈ floorFiles, f ∉ paths top →
    (∀ g ∈ floorFiles, g ∉ paths top → g = f) ∧ ∀ c ∈ top.getLast?, c.path ∉ floorFiles

/-- What the second pass has picked: the candidates at the top, or all but the last of them
and a floor file from below. -/
def Picks (ranked top : Candidates S) (fs : List GoString)
    (picked : Candidates S × List GoString) : Prop :=
  (picked = (top, paths top) ∧ ∀ f ∈ fs, f ∈ paths top) ∨
    (∀ f ∈ paths top, f ∈ picked.2) ∧
      ∃ c ∈ ranked, c.path ∈ fs ∧ c.path ∉ paths top ∧ picked.1 = top.dropLast ++ [c]

variable {ranked top : Candidates S} {fs : List GoString} {picked : Candidates S × List GoString}

section

variable (h : Picks ranked top fs picked)
include h

theorem Picks.bump
    (htop : top ≠ []) {c : FusedCandidate S} (hc : ranked.find? (fun d => d.path = c.path) = some c) :
    Picks ranked top (fs ++ [c.path]) (bump ranked top.length picked c.path) := by
  have hlen : 0 < top.length := length_pos_iff.mpr htop
  unfold Crawl.bump
  rw [hc]
  rcases h with ⟨rfl, hall⟩ | ⟨hseen, d, hd, hdfs, hdtop, hpicked⟩
  · by_cases hf : c.path ∈ paths top
    · rw [if_pos hf]
      exact .inl ⟨rfl, forall_mem_append.mpr ⟨hall, by simpa using hf⟩⟩
    · rw [if_neg hf]
      refine .inr ⟨fun f hf => .tail _ hf, c, mem_of_find?_eq_some hc, by simp, hf, ?_⟩
      simp [dropLast_eq_take]
  · by_cases hf : c.path ∈ picked.2
    · rw [if_pos hf]
      exact .inr ⟨hseen, d, hd, mem_append_left _ hdfs, hdtop, hpicked⟩
    · rw [if_neg hf]
      refine .inr ⟨fun f hf => .tail _ (hseen f hf), c, mem_of_find?_eq_some hc, by simp,
        fun hmem => hf (hseen _ hmem), ?_⟩
      have hfull : top.length ≤ picked.1.length := by simp [hpicked]; omega
      rw [if_pos hfull, hpicked, take_append_of_le_length (by simp), take_of_length_le (by simp)]

theorem Picks.length
    (htop : top ≠ []) : picked.1.length = top.length := by
  have hlen : 0 < top.length := length_pos_iff.mpr htop
  rcases h with ⟨rfl, -⟩ | ⟨-, d, -, -, -, hpicked⟩
  · rfl
  · simp [hpicked]
    omega

theorem Picks.sound
    (hpaths : (paths top).Nodup) : (paths picked.1).Nodup ∧ ∀ c ∈ picked.1, c.path ∉ fs → c ∈ top := by
  rcases h with ⟨rfl, -⟩ | ⟨-, d, -, hdfs, hdtop, hpicked⟩
  · exact ⟨hpaths, fun c hc _ => hc⟩
  have hsub := dropLast_sublist top
  rw [hpicked, paths, map_append, map_singleton, nodup_append]
  refine ⟨⟨hpaths.sublist (hsub.map _), nodup_singleton _, ?_⟩, fun c hc hout => ?_⟩
  · rintro f hf g hg rfl
    exact hdtop (mem_singleton.mp hg ▸ (hsub.map _).subset hf)
  · rcases mem_append.mp hc with hc | hc
    · exact hsub.subset hc
    · exact absurd (mem_singleton.mp hc ▸ hdfs) hout

/-- A floor file is missed if two of them contend for the last place, or if it was there. -/
theorem Picks.floor_iff
    (htop : top ≠ []) (hpaths : (paths top).Nodup) :
    (∀ f ∈ fs, ∃ c ∈ picked.1, c.path = f) ↔ ∀ f ∈ fs, f ∉ paths top →
      (∀ g ∈ fs, g ∉ paths top → g = f) ∧ ∀ c ∈ top.getLast?, c.path ∉ fs := by
  obtain ⟨init, last, rfl⟩ : ∃ init last, top = init ++ [last] := ⟨_, _, (dropLast_append_getLast htop).symm⟩
  rcases h with ⟨rfl, hall⟩ | ⟨-, d, -, hdfs, hdtop, hpicked⟩
  · exact ⟨fun _ f hf hout => absurd (hall f hf) hout, fun _ f hf => mem_map.mp (hall f hf)⟩
  rw [hpicked, dropLast_concat, List.getLast?_concat]
  constructor
  · intro h f hf hout
    have hmissed : ∀ g ∈ fs, g ∉ paths (init ++ [last]) → g = d.path := by
      intro g hg hgout
      obtain ⟨c, hc, rfl⟩ := h g hg
      rcases mem_append.mp hc with hc | hc
      · exact absurd (mem_map_of_mem (mem_append_left _ hc)) hgout
      · rw [mem_singleton.mp hc]
    refine ⟨fun g hg hgout => (hmissed g hg hgout).trans (hmissed f hf hout).symm, ?_⟩
    rintro c ⟨⟩ hcfs
    obtain ⟨x, hx, hpath⟩ := h last.path hcfs
    rcases mem_append.mp hx with hx | hx
    · simp only [map_append, nodup_append, map_singleton] at hpaths
      exact hpaths.2.2 _ (mem_map_of_mem hx) _ (by simp) hpath
    · rw [mem_singleton.mp hx] at hpath
      exact hdtop (by simp [hpath])
  · intro h f hf
    obtain ⟨honly, hlast⟩ := h d.path hdfs hdtop
    by_cases hout : f ∈ paths (init ++ [last])
    · obtain ⟨x, hx, rfl⟩ := mem_map.mp hout
      rcases mem_append.mp hx with hx | hx
      · exact ⟨x, mem_append_left _ hx, rfl⟩
      · exact absurd hf (mem_singleton.mp hx ▸ hlast last rfl)
    · exact ⟨d, by simp, (honly f hf hout).symm⟩

end

theorem picks_foldl_bump (htop : top ≠ []) (hfloor : ∀ f ∈ fs, ∃ c ∈ ranked, c.path = f) :
    Picks ranked top fs (fs.foldl (bump ranked top.length) (top, paths top)) := by
  induction fs using List.reverseRecOn with
  | nil => exact .inl ⟨rfl, by simp⟩
  | append_singleton fs f ih =>
    obtain ⟨c, hc⟩ : ∃ c, ranked.find? (fun d => d.path = f) = some c :=
      Option.isSome_iff_exists.mp (by simpa [List.find?_isSome] using hfloor f (by simp))
    obtain rfl : c.path = f := by simpa using List.find?_some hc
    rw [foldl_append]
    exact (ih (fun f hf => hfloor f (mem_append_left _ hf))).bump htop hc

variable [BEq S] [LT S] [DecidableLT S]

theorem enforceFloor_perm (ranked : Candidates S) (floorFiles : List GoString) (topK : ℤ) :
    (enforceFloor ranked floorFiles topK).Perm (floorFiles.foldl (bump ranked (floorLimit ranked.length topK))
      (ranked.take (floorLimit ranked.length topK),
        paths (ranked.take (floorLimit ranked.length topK)))).1 := by
  unfold enforceFloor
  split_ifs with h
  · rw [h]
    rfl
  · exact perm_insertionSort _ _

/-- The floor is kept exactly if a limit was asked for and there is room for what was
ranked too low. -/
theorem enforceFloor_keeps_iff (ranked : Candidates S) (floorFiles : List GoString) (topK : ℤ)
    (hpaths : (paths ranked).Nodup) (hfloor : ∀ f ∈ floorFiles, ∃ c ∈ ranked, c.path = f)
    (htopK : 0 ≤ topK) : KeepsFloor ranked floorFiles topK (enforceFloor ranked floorFiles topK) ↔
      (0 < topK ∨ ranked = []) ∧ FloorFits ranked floorFiles topK := by
  rcases eq_or_ne ranked [] with rfl | hne
  · obtain rfl : floorFiles = [] := eq_nil_iff_forall_not_mem.mpr (fun f hf => by simpa using hfloor f hf)
    have hnil : enforceFloor ([] : Candidates S) [] topK = [] := by simp [enforceFloor]
    rw [hnil]
    exact ⟨fun _ => ⟨.inr rfl, by simp [FloorFits]⟩, fun _ => ⟨by simp, by simpa using htopK, by simp, by simp⟩⟩
  have hperm := enforceFloor_perm ranked floorFiles topK
  generalize hk : floorLimit ranked.length topK = k at hperm
  have hranked := length_pos_iff.mpr hne
  have hlen : (ranked.take k).length = k ∧ 0 < k := by
    rw [length_take, ← hk, floorLimit]
    split_ifs <;> omega
  have htop : ranked.take k ≠ [] := length_pos_iff.mp (by omega)
  have hpicks := picks_foldl_bump htop hfloor
  rw [hlen.1] at hpicks
  have hlength := hperm.length_eq.trans ((hpicks.length htop).trans hlen.1)
  by_cases hlimit : 0 < topK
  · have hwhole : ranked.take topK.toNat = ranked.take k ∧ (k : ℤ) = min topK ranked.length := by
      rw [← hk, floorLimit]
      split_ifs with h
      · exact ⟨by rw [take_of_length_le (by omega), take_length], by omega⟩
      · exact ⟨rfl, by omega⟩
    have htoppaths := hpaths.sublist ((take_sublist k ranked).map _)
    have hsound := hpicks.sound htoppaths
    have hiff := hpicks.floor_iff htop htoppaths
    simp only [FloorFits, hwhole.1, ← hiff]
    constructor
    · exact fun h => ⟨.inl hlimit, fun f hf => (h.floor f hf).imp (fun c hc => ⟨hperm.subset hc.1, hc.2⟩)⟩
    · rintro ⟨-, h⟩
      refine ⟨fun f hf => (h f hf).imp (fun c hc => ⟨hperm.symm.subset hc.1, hc.2⟩), ?_, ?_, fun c hc => ?_⟩
      · rw [hlength, hwhole.2]
      · exact (hperm.map _).nodup_iff.mpr hsound.1
      · rw [hwhole.1]
        exact hsound.2 c (hperm.subset hc)
  · refine ⟨fun h => ?_, fun h => absurd h.1 (by simp [hlimit, hne])⟩
    have hfull := h.full
    omega

def floorCandidate (name : String) (score : ℤ) : FusedCandidate ℤ := ⟨lit name, false, score⟩

/-- A floor file from the third place takes the second. -/
theorem enforceFloor_keeps_bumped :
    let ranked := [floorCandidate "a" 3, floorCandidate "b" 2, floorCandidate "c" 1]
    KeepsFloor ranked [lit "c"] 2 (enforceFloor ranked [lit "c"] 2) := by
  refine (enforceFloor_keeps_iff _ _ _ (by decide) (by decide) (by decide)).mpr ⟨.inl (by decide), ?_⟩
  unfold FloorFits
  decide

/-- Two floor files from below contend for the last place, and the first is lost. -/
theorem enforceFloor_drops_floor :
    let ranked := [floorCandidate "a" 4, floorCandidate "b" 3, floorCandidate "c" 2, floorCandidate "d" 1]
    ¬KeepsFloor ranked [lit "c", lit "d"] 2 (enforceFloor ranked [lit "c", lit "d"] 2) := by
  intro ranked h
  exact absurd (h.floor (lit "c") (by simp)) (by decide)

end CodeMemory.Crawl
