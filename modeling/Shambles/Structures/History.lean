import Shambles.Structures.Lookup

/-!
# History — the region map depends on the live regions only

A tree whose records match its ledger is determined by the ledger (`Matches.root_eq`), and the
ledger is determined, up to order, by the live regions.  So the order of additions and deletions,
and regions that have come and gone, leave no trace: neither in records nor in counters nor in the
arrays that are allocated.
-/

namespace Shambles
namespace Structures

open RadixTree AssocList

/-- The live regions, as address of the region, start and size. -/
def liveRanges {g : Geometry} (s : TreeState g) : List (RegionPtr × Nat × Nat) :=
  s.regions.map fun r => (r.1, r.2.start, r.2.size)

namespace Mapped

variable {g : Geometry} {W : Nat} {s s' : TreeState g}

theorem ledger_eq (h : Mapped g W s) : ledger g s.regions =
    (liveRanges s).flatMap fun x => registrationsOf g x.1 x.2.1 (wrap64 (x.2.1 + x.2.2)) := by
  rw [liveRanges, List.flatMap_map, ledger]
  apply List.flatMap_congr
  intro r hr
  simp [registrations, (h.fits r hr).extent]

theorem liveRanges_nodup (h : Mapped g W s) : (liveRanges s).Nodup := by
  have hkeys : ((liveRanges s).map Prod.fst).Nodup := by
    simpa [liveRanges, Function.comp_def] using h.tracks.keys
  exact hkeys.of_map _

theorem root_eq (h : Mapped g W s) (h' : Mapped g W s')
    (hsame : ∀ x, x ∈ liveRanges s ↔ x ∈ liveRanges s') : s.root = s'.root := by
  have hperm : (liveRanges s).Perm (liveRanges s') :=
    (List.perm_ext_iff_of_nodup h.liveRanges_nodup h'.liveRanges_nodup).2 hsame
  have hledger : (ledger g s.regions).Perm (ledger g s'.regions) := by
    rw [h.ledger_eq, h'.ledger_eq]
    exact hperm.flatMap_right _
  exact (h.tracks.tree.perm hledger).root_eq h'.tracks.tree

end Mapped

/-- The laws of the region map in a state `s` that has been reached. -/
structure HistoryLaws (g : Geometry) (sizeThresshold chunkSize W : Nat) (s : TreeState g) :
    Prop where
  /-- Any other run to the same live regions ends with the same tree. -/
  history : ∀ es' s', Run (windowSystem g sizeThresshold chunkSize W) (TreeState.init g) es' s' →
    (∀ x, x ∈ liveRanges s ↔ x ∈ liveRanges s') → s.root = s'.root
  /-- Adding a region and deleting it again restores the tree. -/
  restore : ∀ p c addr size,
    (windowSystem g sizeThresshold chunkSize W).enabled s (.addRegion p c addr size) →
    ∃ s₁ s₂, TreeState.step chunkSize s (.addRegion p c addr size) = some s₁ ∧
      TreeState.step chunkSize s₁ (.deleteRegion p) = some s₂ ∧ s₂.root = s.root
  /-- Additions of disjoint regions commute. -/
  commute : ∀ p c addr size p' c' addr' size',
    (windowSystem g sizeThresshold chunkSize W).enabled s (.addRegion p c addr size) →
    (windowSystem g sizeThresshold chunkSize W).enabled s (.addRegion p' c' addr' size') →
    p ≠ p' → (addr + size ≤ addr' ∨ addr' + size' ≤ addr) →
    ∃ s₁ s₂ s₁' s₂', TreeState.step chunkSize s (.addRegion p c addr size) = some s₁ ∧
      TreeState.step chunkSize s₁ (.addRegion p' c' addr' size') = some s₂ ∧
      TreeState.step chunkSize s (.addRegion p' c' addr' size') = some s₁' ∧
      TreeState.step chunkSize s₁' (.addRegion p c addr size) = some s₂' ∧ s₂.root = s₂'.root
  /-- Whatever half of a record an addition writes was NULL before. -/
  fresh : ∀ p c addr size,
    (windowSystem g sizeThresshold chunkSize W).enabled s (.addRegion p c addr size) →
    ∀ slot ∈ slots g addr (wrap64 (addr + size)), ∀ half : Half,
      half.writes slot.2 = true → half.read (record g s.root slot.1) = (none, 0)

namespace Mapped

variable {g : Geometry} {sizeThresshold chunkSize W : Nat} {s : TreeState g} {p c addr size : Nat}

/-- The state after `addRegion`. -/
def added (chunkSize : Nat) (s : TreeState g) (p c addr size : Nat) : TreeState g :=
  s.add p (addRegion g chunkSize s.root p c addr size)

theorem liveRanges_added (chunkSize : Nat) (s : TreeState g) (p c addr size : Nat) :
    liveRanges (added chunkSize s p c addr size) = (p, addr, size) :: liveRanges s := by
  have hsize : ShamblesRegion.size ⟨addr, chunkTable chunkSize addr size, c⟩ = size :=
    chunkTable_size chunkSize addr size
  simp [liveRanges, added, TreeState.add, addRegion, hsize]

/-- A second addition stays possible behind the first. -/
theorem enabled_added (p c addr size : Nat) {p' c' addr' size' : Nat}
    (he' : (windowSystem g sizeThresshold chunkSize W).enabled s (.addRegion p' c' addr' size'))
    (hne : p ≠ p') (hapart : addr + size ≤ addr' ∨ addr' + size' ≤ addr) :
    (windowSystem g sizeThresshold chunkSize W).enabled (added chunkSize s p c addr size)
      (.addRegion p' c' addr' size') := by
  rcases he' with ⟨⟨hfresh, hrest⟩, hok⟩
  have hsize : ShamblesRegion.size ⟨addr, chunkTable chunkSize addr size, c⟩ = size :=
    chunkTable_size chunkSize addr size
  refine ⟨⟨?_, hrest⟩, ?_⟩
  · simp only [added, TreeState.add, addRegion, lookup_cons_eq, if_neg (Ne.symm hne)]
    exact hfresh
  · intro range hrange
    obtain rfl : (addr', size') = range := Option.some.inj hrange
    rcases hok _ hrange with ⟨hlo, hhi, hold⟩
    refine ⟨hlo, hhi, ?_⟩
    intro r hr
    rcases List.mem_cons.1 hr with rfl | hr
    · simpa [addRegion, hsize] using hapart
    · exact hold r hr

section Laws

variable (hg : g.Regular) (hfull : 39 ≤ g.nonLeafShift0) (hpos : 1 ≤ sizeThresshold)
  (hslot : 2 ^ g.regionShift ≤ sizeThresshold)

include hg hfull hpos hslot

theorem add (h : Mapped g W s)
    (he : (windowSystem g sizeThresshold chunkSize W).enabled s (.addRegion p c addr size)) :
    Mapped g W (added chunkSize s p c addr size) := by
  have henabled : TreeState.Enabled sizeThresshold chunkSize s (.addRegion p c addr size) := he.1
  exact h.step hg hfull hpos hslot henabled he.2 rfl

theorem restore (h : Mapped g W s)
    (he : (windowSystem g sizeThresshold chunkSize W).enabled s (.addRegion p c addr size)) :
    ∃ s₁ s₂, TreeState.step chunkSize s (.addRegion p c addr size) = some s₁ ∧
      TreeState.step chunkSize s₁ (.deleteRegion p) = some s₂ ∧ s₂.root = s.root := by
  have hadd := h.add hg hfull hpos hslot he
  have hlive : (added chunkSize s p c addr size).regions.lookup p =
      some ⟨addr, chunkTable chunkSize addr size, c⟩ := by
    simp [added, TreeState.add, addRegion]
  rcases hadd.tracks.delete Matches.maintained hlive with ⟨root', hroot', _⟩
  have hstep : TreeState.step chunkSize (added chunkSize s p c addr size) (.deleteRegion p) =
      some ⟨root', (added chunkSize s p c addr size).regions.filter fun r => r.1 ≠ p⟩ := by
    simp only [TreeState.step, hlive, hroot', Option.map_some]
  have hnext := hadd.step hg hfull hpos hslot (e := .deleteRegion p)
    (by simp [TreeState.Enabled, hlive]) (by simp [StepOk, TreeEvent.range]) hstep
  refine ⟨_, _, rfl, hstep, hnext.root_eq h ?_⟩
  -- Filtering the new key out of the table gives the old table back.
  have hold : (added chunkSize s p c addr size).regions.filter (fun r => r.1 ≠ p) = s.regions := by
    have hkeep : s.regions.filter (fun r => r.1 ≠ p) = s.regions := by
      apply List.filter_eq_self.2
      intro r hr
      have hne : r.1 ≠ p := fun hrp =>
        notMem_keys_of_lookup he.1.1 (List.mem_map.2 ⟨r, hr, hrp⟩)
      simpa using hne
    have hdrop : (added chunkSize s p c addr size).regions.filter (fun r => r.1 ≠ p) =
        s.regions.filter (fun r => r.1 ≠ p) := by
      simp [added, TreeState.add]
    rw [hdrop, hkeep]
  intro x
  simp only [liveRanges, hold]

theorem commute (h : Mapped g W s)
    (he : (windowSystem g sizeThresshold chunkSize W).enabled s (.addRegion p c addr size))
    {p' c' addr' size' : Nat}
    (he' : (windowSystem g sizeThresshold chunkSize W).enabled s (.addRegion p' c' addr' size'))
    (hne : p ≠ p') (hapart : addr + size ≤ addr' ∨ addr' + size' ≤ addr) :
    (added chunkSize (added chunkSize s p c addr size) p' c' addr' size').root =
      (added chunkSize (added chunkSize s p' c' addr' size') p c addr size).root := by
  have hfirst := (h.add hg hfull hpos hslot he).add hg hfull hpos hslot
    (enabled_added p c addr size he' hne hapart)
  have hsecond := (h.add hg hfull hpos hslot he').add hg hfull hpos hslot
    (enabled_added p' c' addr' size' he hne.symm hapart.symm)
  refine hfirst.root_eq hsecond ?_
  intro x
  simp only [liveRanges_added, List.mem_cons]
  constructor
  · rintro (hx | hx | hx)
    · exact Or.inr (Or.inl hx)
    · exact Or.inl hx
    · exact Or.inr (Or.inr hx)
  · rintro (hx | hx | hx)
    · exact Or.inr (Or.inl hx)
    · exact Or.inl hx
    · exact Or.inr (Or.inr hx)

theorem fresh (h : Mapped g W s)
    (he : (windowSystem g sizeThresshold chunkSize W).enabled s (.addRegion p c addr size))
    {slot : Nat × Phase} (hmem : slot ∈ slots g addr (wrap64 (addr + size))) {half : Half}
    (hw : half.writes slot.2 = true) : half.read (record g s.root slot.1) = (none, 0) := by
  have hadd := h.add hg hfull hpos hslot he
  have hsize : ShamblesRegion.size ⟨addr, chunkTable chunkSize addr size, c⟩ = size :=
    chunkTable_size chunkSize addr size
  have hfits : Fits g W ⟨addr, chunkTable chunkSize addr size, c⟩ :=
    hadd.fits (p, _) (by simp [added, TreeState.add, addRegion])
  have hr : (⟨slot.1, slot.2, p, addr, wrap64 (addr + size)⟩ : Registration) ∈
      registrations g p ⟨addr, chunkTable chunkSize addr size, c⟩ := by
    simp only [registrations, hfits.extent, hsize, registrationsOf]
    exact List.mem_map.2 ⟨slot, hmem, rfl⟩
  refine h.tracks.tree.unwritten half _ ?_
  intro r' hr' hpath
  rcases List.mem_flatMap.1 hr' with ⟨x, hx, hr'⟩
  -- A live region that writes this half of the record would overlap the new one.
  have hapart : RangesApart ⟨addr, chunkTable chunkSize addr size, c⟩ x.2 := by
    have hold := ((he.2 _ rfl).2.2 x hx).symm
    simpa [RangesApart, hsize] using hold
  have hcompat := hfits.compatible hg hfull (h.fits x hx) hapart hr hr'
  by_contra hw'
  exact hcompat hpath.symm half ⟨hw, by simpa using hw'⟩

end Laws

end Mapped

/-- In every state reached with disjoint regions in one window. -/
theorem history_independent {sizeThresshold chunkSize W : Nat} {w : Int}
    (hpos : 1 ≤ sizeThresshold) (hsize : sizeThresshold < 2 ^ 48)
    (hfull : 39 ≤ (shamblesStructsInit sizeThresshold w).nonLeafShift0) {es : List TreeEvent}
    {s : TreeState (shamblesStructsInit sizeThresshold w)}
    (h : Run (windowSystem (shamblesStructsInit sizeThresshold w) sizeThresshold chunkSize W)
      (TreeState.init _) es s) :
    HistoryLaws (shamblesStructsInit sizeThresshold w) sizeThresshold chunkSize W s := by
  have hg := Geometry.regular_init w hpos hsize
  have hslot := Geometry.slot_le_threshold w hpos (by omega)
  have hmapped := Mapped.run hg hfull hpos hslot h
  refine ⟨?_, ?_, ?_, ?_⟩
  · intro es' s' h' hsame
    exact hmapped.root_eq (Mapped.run hg hfull hpos hslot h') hsame
  · intro p c addr size he
    exact hmapped.restore hg hfull hpos hslot he
  · intro p c addr size p' c' addr' size' he he' hne hapart
    exact ⟨_, _, _, _, rfl, rfl, rfl, rfl,
      hmapped.commute hg hfull hpos hslot he he' hne hapart⟩
  · intro p c addr size he slot hmem half hw
    exact hmapped.fresh hg hfull hpos hslot he hmem hw

/-- Two neighbours in one slot, after a third region has come and gone. -/
theorem history_independent_neighbours :
    ∃ s, Run (windowSystem (shamblesStructsInit 0x10000 (-1)) 0x10000 0x8000 0) (TreeState.init _)
        [.addRegion 1 0x800 0x18000 0x20000, .addRegion 3 0xa00 0x38000 0x20000,
          .deleteRegion 3, .addRegion 2 0x900 0x3a000 0x20000] s ∧
      HistoryLaws (shamblesStructsInit 0x10000 (-1)) 0x10000 0x8000 0 s := by
  rcases Run.of_exec (windowSystem (shamblesStructsInit 0x10000 (-1)) 0x10000 0x8000 0)
    (TreeState.init _)
    [.addRegion 1 0x800 0x18000 0x20000, .addRegion 3 0xa00 0x38000 0x20000,
      .deleteRegion 3, .addRegion 2 0x900 0x3a000 0x20000] (by decide) with ⟨s, _, hrun⟩
  exact ⟨s, hrun, history_independent (by decide) (by decide) (by decide) hrun⟩

end Structures
end Shambles
