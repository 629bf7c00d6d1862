import Shambles.Structures.Lookup

/-!
# Completeness — which addresses `getRegion` finds

The registration phases leave two gaps.  A start that is aligned to a slot is skipped: no phase
registers the first slot.  In the slot of an unaligned end only the low half is written; `getRegion`
compares with the high half first, and `addr >= NULL` answers with its NULL region.  The second gap
closes when another region has its unaligned start in the same slot, since `highAddr` is then above
the address.

`FoundFrom` and `Found` describe the addresses of a live region that are attributed to it; for all
others the answer is not that region.
-/

namespace Shambles
namespace Structures

open RadixTree AssocList

/-- The slots that `[start, start + size)` fills, the slot of its unaligned start, and the slot of
its unaligned end if one of `starts` lies unaligned there. -/
def FoundFrom (g : Geometry) (starts : List Nat) (start size a : Nat) : Prop :=
  (start + size < 2 ^ 64 ∧ g.slot start < g.slot a ∧ g.slot a < g.slot (start + size)) ∨
    (g.slot a = g.slot start ∧ start % 2 ^ g.regionShift ≠ 0) ∨
    (start + size < 2 ^ 64 ∧ g.slot a = g.slot (start + size) ∧
      ∃ x ∈ starts, g.slot x = g.slot a ∧ x % 2 ^ g.regionShift ≠ 0)

instance (g : Geometry) (starts : List Nat) (start size a : Nat) :
    Decidable (FoundFrom g starts start size a) :=
  inferInstanceAs (Decidable (_ ∨ _ ∨ _))

/-- The addresses of a region that are attributed to it while `regions` are live. -/
def Found (g : Geometry) (regions : List (RegionPtr × ShamblesRegion)) (region : ShamblesRegion)
    (a : Nat) : Prop :=
  FoundFrom g (regions.map fun r => r.2.start) region.start region.size a

instance (g : Geometry) (regions : List (RegionPtr × ShamblesRegion)) (region : ShamblesRegion)
    (a : Nat) : Decidable (Found g regions region a) :=
  inferInstanceAs (Decidable (FoundFrom _ _ _ _ _))

namespace Mapped

variable {g : Geometry} {W : Nat} {s : TreeState g} {a : Nat} {p : RegionPtr}
  {region : ShamblesRegion}

theorem apart_of_mem (h : Mapped g W s) {x y : RegionPtr × ShamblesRegion} (hx : x ∈ s.regions)
    (hy : y ∈ s.regions) (hne : x ≠ y) : RangesApart x.2 y.2 := by
  have hsymm : Std.Symm fun r r' : RegionPtr × ShamblesRegion => RangesApart r.2 r'.2 :=
    ⟨fun _ _ hxy => Or.symm hxy⟩
  exact h.disjoint.forall hx hy hne

/-- Live regions are told apart by their addresses. -/
theorem eq_of_mem (h : Mapped g W s) {region' : ShamblesRegion} (hregion : (p, region) ∈ s.regions)
    (hregion' : (p, region') ∈ s.regions) : region' = region := by
  have hlookup := lookup_of_mem h.tracks.keys hregion
  rw [lookup_of_mem h.tracks.keys hregion'] at hlookup
  exact Option.some.inj hlookup

/-- Two regions that contain one address are the same. -/
theorem eq_of_contains (h : Mapped g W s) {q : RegionPtr} {region' : ShamblesRegion}
    (hlive : (p, region) ∈ s.regions) (hlive' : (q, region') ∈ s.regions)
    (hin : region.start ≤ a ∧ a < region.start + region.size)
    (hin' : region'.start ≤ a ∧ a < region'.start + region'.size) : (p, region) = (q, region') := by
  by_contra hne
  rcases h.apart_of_mem hlive hlive' hne with hle | hle
  · simp only at hle
    omega
  · simp only at hle
    omega

/-- Under a registration in the high half the first comparison already answers. -/
theorem getRegion_of_high (hg : g.Regular) (hfull : 39 ≤ g.nonLeafShift0) (h : Mapped g W s)
    (ha : a / 2 ^ 39 = W) (hlt : a < 2 ^ 64) (hregion : (p, region) ∈ s.regions)
    (hlo : region.start ≤ a) {phase : Phase} (hat : RegisteredAt g region phase a)
    (hw : phase.high = true) : getRegion g s.root a = some p := by
  rcases Prod.mk.inj (h.written hg hfull ha hlt hregion hat .high hw) with ⟨hreg, haddr⟩
  have haddr' : (record g s.root a).highAddr = region.start := haddr
  rw [getRegion_eq, answer, haddr', if_pos hlo, hreg]

/-- A live region with its start in the slot where another one ends lies behind it. -/
theorem start_behind (h : Mapped g W s) (hregion : (p, region) ∈ s.regions)
    (hslot : g.slot a = g.slot (region.start + region.size)) {r : RegionPtr × ShamblesRegion}
    (hr : r ∈ s.regions) (hstart : g.slot r.2.start = g.slot a) :
    region.start + region.size ≤ r.2.start := by
  have hsize := (h.fits _ hregion).size
  have hfirst := g.slot_bounds region.start
  have hother := g.slot_bounds r.2.start
  have hlast := g.slot_bounds (region.start + region.size)
  simp only at hsize
  rw [hstart, hslot] at hother
  -- The region has a slot before its last one, so it is not `r`, nor can `r` end before it.
  have hne : (p, region) ≠ r := by
    rintro rfl
    simp only at hother
    omega
  rcases h.apart_of_mem hregion hr hne with hle | hle
  · exact hle
  · have hpos : 0 < 2 ^ g.regionShift := Nat.two_pow_pos _
    simp only at hle
    omega

/-- The tail slot: another region's unaligned start lies above the address, so the first
comparison fails and the second one answers. -/
theorem getRegion_of_tail (hg : g.Regular) (hfull : 39 ≤ g.nonLeafShift0) (h : Mapped g W s)
    (ha : a / 2 ^ 39 = W) (hlt : a < 2 ^ 64) (hregion : (p, region) ∈ s.regions)
    (hhi : a < region.start + region.size) (hend : region.start + region.size < 2 ^ 64)
    (hslot : g.slot a = g.slot (region.start + region.size)) {r : RegionPtr × ShamblesRegion}
    (hr : r ∈ s.regions) (hstart : g.slot r.2.start = g.slot a)
    (hmod : r.2.start % 2 ^ g.regionShift ≠ 0) :
    getRegion g s.root a = some p := by
  have hfits : Fits g W region := h.fits _ hregion
  have hfits' : Fits g W r.2 := h.fits _ hr
  have hbehind := h.start_behind hregion hslot hr hstart
  have hhead : RegisteredAt g r.2 .head a :=
    ⟨_, (mem_slots_iff hg hfits'.size hfits'.bound).2 (Or.inl ⟨rfl, rfl, hmod⟩), hstart⟩
  have hhighAddr : (record g s.root a).highAddr = r.2.start :=
    (Prod.mk.inj (h.written hg hfull ha hlt hr hhead .high rfl)).2
  have htailmod : (region.start + region.size) % 2 ^ g.regionShift ≠ 0 := by
    have hdiv := Nat.div_add_mod' (region.start + region.size) (2 ^ g.regionShift)
    have hends := g.slot_bounds a
    rw [← Geometry.slot_eq, ← hslot] at hdiv
    omega
  have htail : RegisteredAt g region .tail a :=
    ⟨_, (mem_slots_iff hg hfits.size hfits.bound).2
      (Or.inr (Or.inr (Or.inl ⟨rfl, hend, htailmod, rfl⟩))), by rw [g.slot_mul, hslot]⟩
  rcases Prod.mk.inj (h.written hg hfull ha hlt hregion htail .low rfl) with ⟨hlowReg, hlowAddr⟩
  have hlowAddr' : (record g s.root a).lowAddr = region.start + region.size :=
    hlowAddr.trans (wrap64_of_lt hend)
  rw [getRegion_eq, answer, hhighAddr, if_neg (by omega), hlowAddr', if_pos hhi, hlowReg]

/-- Whoever has a bound above `a` in the high half starts, unaligned, in the slot of `a`. -/
theorem start_of_highAddr (hg : g.Regular) (hfull : 39 ≤ g.nonLeafShift0) (h : Mapped g W s)
    (ha : a / 2 ^ 39 = W) (hlt : a < 2 ^ 64) (habove : a < (record g s.root a).highAddr) :
    ∃ x ∈ s.regions.map (fun r => r.2.start), g.slot x = g.slot a ∧ x % 2 ^ g.regionShift ≠ 0 := by
  rcases h.writer hg hfull ha hlt .high with ⟨q, r, phase, hr, ⟨addr0, hmem, hslot⟩, hw, hread⟩ | hread
  · have haddr : (record g s.root a).highAddr = r.start := (Prod.mk.inj hread).2
    have hfits : Fits g W r := h.fits _ hr
    rcases (mem_slots_iff hg hfits.size hfits.bound).1 hmem with
      ⟨rfl, rfl, hmod⟩ | ⟨rfl, _, n, hn, _, rfl⟩ | ⟨rfl, _⟩ | ⟨rfl, _⟩
    · exact ⟨r.start, List.mem_map_of_mem hr, hslot, hmod⟩
    · -- A region that fills the slot starts below the address.
      rw [g.slot_mul] at hslot
      have hends := g.slot_bounds a
      have hends' := g.slot_bounds r.start
      have hmul : (g.slot r.start + 1) * 2 ^ g.regionShift ≤ n * 2 ^ g.regionShift :=
        Nat.mul_le_mul_right _ hn
      rw [Nat.add_mul, Nat.one_mul, hslot] at hmul
      omega
    · cases hw
    · cases hw
  · have hnull : (record g s.root a).highAddr = 0 := (Prod.mk.inj hread).2
    omega

theorem found_of_getRegion (hg : g.Regular) (hfull : 39 ≤ g.nonLeafShift0) (h : Mapped g W s)
    (ha : a / 2 ^ 39 = W) (hlt : a < 2 ^ 64) (hregion : (p, region) ∈ s.regions)
    (hget : getRegion g s.root a = some p) : Found g s.regions region a := by
  have hfits : Fits g W region := h.fits _ hregion
  rcases h.answer_cases hg hfull ha hlt hget with ⟨r, phase, hr, ⟨addr0, hmem, hslot⟩, hcase⟩
  obtain rfl : r = region := h.eq_of_mem hregion hr
  rcases (mem_slots_iff hg hfits.size hfits.bound).1 hmem with
    ⟨rfl, rfl, hmod⟩ | ⟨rfl, hend, n, hlo, hhi, rfl⟩ | ⟨rfl, hend, _, rfl⟩ | ⟨rfl, heq, _⟩
  · exact Or.inr (Or.inl ⟨hslot.symm, hmod⟩)
  · rw [g.slot_mul] at hslot
    subst hslot
    exact Or.inl ⟨hend, hlo, hhi⟩
  · rw [g.slot_mul] at hslot
    rcases hcase with ⟨hw, _⟩ | ⟨_, _, habove⟩
    · cases hw
    · exact Or.inr (Or.inr ⟨hend, hslot.symm, h.start_of_highAddr hg hfull ha hlt habove⟩)
  · -- At the end of the address space the stored bound is 0, below every address.
    rcases hcase with ⟨hw, _⟩ | ⟨_, hbound, _⟩
    · cases hw
    · have hzero : wrap64 (r.start + r.size) = 0 := by
        rw [heq]
        decide
      omega

theorem getRegion_eq_some_iff (hg : g.Regular) (hfull : 39 ≤ g.nonLeafShift0) (h : Mapped g W s)
    (hregion : (p, region) ∈ s.regions) (hlo : region.start ≤ a)
    (hhi : a < region.start + region.size) :
    getRegion g s.root a = some p ↔ Found g s.regions region a := by
  have hfits : Fits g W region := h.fits _ hregion
  have hwindow := hfits.window
  have ha : a / 2 ^ 39 = W := div_window (by omega) (by omega)
  have hlt : a < 2 ^ 64 := lt_of_lt_of_le hhi hfits.bound
  constructor
  · intro hget
    exact h.found_of_getRegion hg hfull ha hlt hregion hget
  · rintro (⟨hend, hafter, hbefore⟩ | ⟨hslot, hmod⟩ | ⟨hend, hslot, x, hx, hstart, hmod⟩)
    · have hat : RegisteredAt g region .full a :=
        ⟨_, (mem_slots_iff hg hfits.size hfits.bound).2
          (Or.inr (Or.inl ⟨rfl, hend, g.slot a, hafter, hbefore, rfl⟩)), g.slot_mul _⟩
      exact h.getRegion_of_high hg hfull ha hlt hregion hlo hat rfl
    · have hat : RegisteredAt g region .head a :=
        ⟨_, (mem_slots_iff hg hfits.size hfits.bound).2 (Or.inl ⟨rfl, rfl, hmod⟩), hslot.symm⟩
      exact h.getRegion_of_high hg hfull ha hlt hregion hlo hat rfl
    · rcases List.mem_map.1 hx with ⟨r, hr, rfl⟩
      exact h.getRegion_of_tail hg hfull ha hlt hregion hhi hend hslot hr hstart hmod

/-- An address of a live region that is not found is attributed to no other region either. -/
theorem getRegion_eq_ite (hg : g.Regular) (hfull : 39 ≤ g.nonLeafShift0) (h : Mapped g W s)
    (hregion : (p, region) ∈ s.regions) (hlo : region.start ≤ a)
    (hhi : a < region.start + region.size) :
    getRegion g s.root a = if Found g s.regions region a then some p else none := by
  have hfits : Fits g W region := h.fits _ hregion
  have hwindow := hfits.window
  have hiff := h.getRegion_eq_some_iff hg hfull hregion hlo hhi
  split_ifs with hfound
  · exact hiff.2 hfound
  · cases hget : getRegion g s.root a with
    | none => rfl
    | some q =>
        have ha : a / 2 ^ 39 = W := div_window (by omega) (by omega)
        rcases h.getRegion_sound hg hfull ha (lt_of_lt_of_le hhi hfits.bound) hget with
          ⟨region', hregion', hin⟩
        have hsame := h.eq_of_contains (mem_of_lookup hregion') hregion hin ⟨hlo, hhi⟩
        rw [(Prod.mk.inj hsame).1] at hget
        exact absurd (hiff.1 hget) hfound

end Mapped

/-- With the default threshold, an address of a live region is attributed to it exactly when it is
`Found`. -/
theorem getRegion_complete_iff {chunkSize W : Nat} {w : Int} {es : List TreeEvent}
    {s : TreeState (shamblesStructsInit 0x10000 w)}
    (h : Run (windowSystem (shamblesStructsInit 0x10000 w) 0x10000 chunkSize W)
      (TreeState.init _) es s) {p : RegionPtr} {region : ShamblesRegion}
    (hlive : s.regions.lookup p = some region) {a : Nat} (hlo : region.start ≤ a)
    (hhi : a < region.start + region.size) :
    getRegion _ s.root a = some p ↔
      Found (shamblesStructsInit 0x10000 w) s.regions region a := by
  have hg : (shamblesStructsInit 0x10000 w).Regular :=
    Geometry.regular_init w (by decide) (by decide)
  have hfull : 39 ≤ (shamblesStructsInit 0x10000 w).nonLeafShift0 := by
    have hconst : 39 ≤ (shamblesStructsInit 0x10000 0).nonLeafShift0 := by decide
    exact hconst
  have hmapped := Mapped.run hg hfull (by decide)
    (Geometry.slot_le_threshold w (by decide) (by decide)) h
  exact hmapped.getRegion_eq_some_iff hg hfull (mem_of_lookup hlive) hlo hhi

/-- The first slot of a region with an unaligned start. -/
theorem getRegion_complete_iff_head :
    ∃ s : TreeState (shamblesStructsInit 0x10000 (-1)),
      Run (windowSystem (shamblesStructsInit 0x10000 (-1)) 0x10000 0x8000 0) (TreeState.init _)
        [.addRegion 1 0x800 0x18000 0x20000] s ∧
      (getRegion _ s.root 0x18000 = some 1 ↔
        Found (shamblesStructsInit 0x10000 (-1)) s.regions
          ⟨0x18000, chunkTable 0x8000 0x18000 0x20000, 0x800⟩ 0x18000) := by
  rcases Run.of_exec (windowSystem (shamblesStructsInit 0x10000 (-1)) 0x10000 0x8000 0)
    (TreeState.init _) [.addRegion 1 0x800 0x18000 0x20000] (by decide) with ⟨s, hs, hrun⟩
  have hlive : s.regions.lookup 1 = some ⟨0x18000, chunkTable 0x8000 0x18000 0x20000, 0x800⟩ := by
    obtain rfl := Option.some.inj hs
    rfl
  exact ⟨s, hrun, getRegion_complete_iff hrun hlive (by decide) (by decide)⟩

/-- A region whose start is aligned to a slot is not found at its start, and a region whose end is
not aligned is not found in its last slot. -/
theorem getRegion_misses :
    ∃ s : TreeState (shamblesStructsInit 0x10000 (-1)),
      Run (windowSystem (shamblesStructsInit 0x10000 (-1)) 0x10000 0x8000 0) (TreeState.init _)
        [.addRegion 1 0x800 0x10000 0x20000, .addRegion 2 0x900 0x58000 0x20000] s ∧
      s.regions.lookup 1 = some ⟨0x10000, chunkTable 0x8000 0x10000 0x20000, 0x800⟩ ∧
      getRegion _ s.root 0x10000 = none ∧
      s.regions.lookup 2 = some ⟨0x58000, chunkTable 0x8000 0x58000 0x20000, 0x900⟩ ∧
      getRegion _ s.root 0x77fff = none := by
  rcases Run.of_exec (windowSystem (shamblesStructsInit 0x10000 (-1)) 0x10000 0x8000 0)
    (TreeState.init _)
    [.addRegion 1 0x800 0x10000 0x20000, .addRegion 2 0x900 0x58000 0x20000] (by decide) with
    ⟨s, hs, hrun⟩
  obtain rfl := Option.some.inj hs
  exact ⟨_, hrun, rfl, by decide, rfl, by decide⟩

end Structures
end Shambles
