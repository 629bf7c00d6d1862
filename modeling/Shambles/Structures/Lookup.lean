import Shambles.Structures.Registrations
import Shambles.Structures.Slots

/-!
# Lookup — what `getRegion` answers

When the live regions are disjoint, at least one slot long and inside one `2^39`-aligned window,
no two registrations write the same half of the same record: a region that writes the high half
covers the last byte of the slot, one that writes the low half its first byte.  Records are then
exactly what the ledger says (`Matches`), and `getRegion` can be read off them.

It only ever answers with the region the address lies in.  It does not always find it: the slot of
an aligned start is never registered, and in the slot of an unaligned end the comparison with a
NULL `highAddr` comes first and answers NULL, unless another region starts further up in that slot.
-/

namespace Shambles
namespace Structures

open RadixTree AssocList

/-- Two registrations that do not write the same half of the same record. -/
def Compatible (g : Geometry) (r r' : Registration) : Prop :=
  r.path g = r'.path g →
    ∀ half : Half, ¬ (half.writes r.phase = true ∧ half.writes r'.phase = true)

/-- The records say what the ledger says, and nothing else. -/
structure Matches (g : Geometry) (root : Root g) (rs : List Registration) : Prop where
  counted : Forest.Counted root (rs.map (Registration.path g))
  compatible : rs.Pairwise (Compatible g)
  written : ∀ half : Half, ∀ r ∈ rs, half.writes r.phase = true →
    half.read (Forest.look RegionNode.zero (r.path g) root) =
      (some r.reg, half.pick r.addr r.endAddr)
  unwritten : ∀ (half : Half) q, (∀ r ∈ rs, r.path g = q → half.writes r.phase = false) →
    half.read (Forest.look RegionNode.zero q root) = (none, 0)

theorem Compatible.symm {g : Geometry} {r r' : Registration} (h : Compatible g r r') :
    Compatible g r' r :=
  fun hpath half hboth => h hpath.symm half ⟨hboth.2, hboth.1⟩

namespace Matches

variable {g : Geometry} {root root' : Root g} {r : Registration} {rs rs' : List Registration}

theorem empty : Matches g (Forest.empty _) [] := by
  refine ⟨Forest.counted_empty _, List.Pairwise.nil, ?_, ?_⟩
  · intro half r hr
    cases hr
  · intro half q _
    rw [Forest.look_empty, Half.read_zero]

theorem perm (h : Matches g root rs) (hperm : rs.Perm rs') : Matches g root rs' := by
  refine ⟨h.counted.perm (hperm.map _), ?_, ?_, ?_⟩
  · exact hperm.pairwise h.compatible Compatible.symm
  · intro half r hr
    exact h.written half r (hperm.mem_iff.2 hr)
  · intro half q hq
    exact h.unwritten half q fun r hr => hq r (hperm.mem_iff.1 hr)

/-- The first writer of a half, or nobody. -/
theorem written_or (h : Matches g root rs) (half : Half)
    (q : RadixTree.Path (g.nonLeafNodesDepth + 1)) :
    (∃ r ∈ rs, r.path g = q ∧ half.writes r.phase = true ∧
        half.read (Forest.look RegionNode.zero q root) =
          (some r.reg, half.pick r.addr r.endAddr)) ∨
      ((∀ r ∈ rs, r.path g = q → half.writes r.phase = false) ∧
        half.read (Forest.look RegionNode.zero q root) = (none, 0)) := by
  by_cases hex : ∃ r ∈ rs, r.path g = q ∧ half.writes r.phase = true
  · rcases hex with ⟨r, hr, rfl, hw⟩
    exact Or.inl ⟨r, hr, rfl, hw, h.written half r hr hw⟩
  · have hnone : ∀ r ∈ rs, r.path g = q → half.writes r.phase = false := by
      intro r hr hpath
      by_contra hw
      exact hex ⟨r, hr, hpath, by simpa using hw⟩
    exact Or.inr ⟨hnone, h.unwritten half q hnone⟩

theorem look_eq (h : Matches g root rs) (h' : Matches g root' rs)
    (q : RadixTree.Path (g.nonLeafNodesDepth + 1)) :
    Forest.look RegionNode.zero q root = Forest.look RegionNode.zero q root' := by
  apply Half.ext
  intro half
  rcases h.written_or half q with ⟨r, hr, rfl, hw, hread⟩ | ⟨hnone, hread⟩
  · rw [hread, h'.written half r hr hw]
  · rw [hread, h'.unwritten half q hnone]

/-- Tree and ledger determine each other. -/
theorem root_eq (h : Matches g root rs) (h' : Matches g root' rs) : root = root' :=
  h.counted.ext RegionNode.zero h'.counted (h.look_eq h')

theorem register (h : Matches g root rs) (hnew : ∀ r' ∈ rs, Compatible g r r') :
    Matches g (register g root r) (r :: rs) := by
  rw [register_eq]
  refine ⟨h.counted.visit _ _ _, List.pairwise_cons.2 ⟨hnew, h.compatible⟩, ?_, ?_⟩
  · intro half r' hr' hw
    rw [Forest.look_visit]
    by_cases hpath : r'.path g = r.path g
    · rw [if_pos hpath, Half.read_setFields]
      rcases List.mem_cons.1 hr' with rfl | hr'
      · rw [if_pos hw]
      · -- Another writer of this half would not be compatible with `r`.
        have hfree : ¬ half.writes r.phase = true := fun hw' => hnew r' hr' hpath.symm half ⟨hw', hw⟩
        rw [if_neg hfree, ← hpath]
        exact h.written half r' hr' hw
    · rw [if_neg hpath]
      rcases List.mem_cons.1 hr' with rfl | hr'
      · exact absurd rfl hpath
      · exact h.written half r' hr' hw
  · intro half q hq
    have hrest := h.unwritten half q fun r' hr' => hq r' (by simp [hr'])
    rw [Forest.look_visit]
    by_cases hpath : q = r.path g
    · have hfree : half.writes r.phase = false := hq r (by simp) hpath.symm
      rw [if_pos hpath, Half.read_setFields, hfree, ← hpath]
      exact hrest
    · rw [if_neg hpath]
      exact hrest

/-- A record without registrations is zeroed. -/
theorem look_eq_zero (h : Matches g root rs) {q : RadixTree.Path (g.nonLeafNodesDepth + 1)}
    (hq : q ∉ rs.map (Registration.path g)) :
    Forest.look RegionNode.zero q root = RegionNode.zero := by
  apply Half.ext
  intro half
  rw [Half.read_zero]
  refine h.unwritten half q ?_
  intro r hr hpath
  exact absurd (List.mem_map.2 ⟨r, hr, hpath⟩) hq

theorem unregister (h : Matches g root (r :: rs)) :
    ∃ root', unregister g root r = some root' ∧ Matches g root' rs := by
  rcases List.pairwise_cons.1 h.compatible with ⟨hr, hrs⟩
  rcases h.counted.leave (clearFields r.phase) with ⟨root', hroot', hcounted⟩
  -- What only `r` has written is zero again once its halves are cleared.
  have hlast : r.path g ∉ rs.map (Registration.path g) →
      clearFields r.phase (Forest.look RegionNode.zero (r.path g) root) = RegionNode.zero := by
    intro hnone
    apply Half.ext
    intro half
    rw [Half.read_zero, Half.read_clearFields]
    by_cases hw : half.writes r.phase = true
    · rw [if_pos hw]
    · rw [if_neg hw]
      refine h.unwritten half _ ?_
      intro r' hr' hpath
      rcases List.mem_cons.1 hr' with rfl | hr'
      · simpa using hw
      · exact absurd (List.mem_map.2 ⟨r', hr', hpath⟩) hnone
  have hlook := Forest.look_leave RegionNode.zero (clearFields r.phase) h.counted
    (fun q hq => h.look_eq_zero hq) hlast hroot'
  refine ⟨root', by rw [unregister_eq]; exact hroot', hcounted, hrs, ?_, ?_⟩
  · intro half r' hr' hw
    have hold := h.written half r' (by simp [hr']) hw
    rw [hlook]
    by_cases hpath : r'.path g = r.path g
    -- Another registration at the same record has written the other half.
    · have hfree : ¬ half.writes r.phase = true := fun hw' => hr r' hr' hpath.symm half ⟨hw', hw⟩
      rw [if_pos hpath, Half.read_clearFields, if_neg hfree, ← hpath]
      exact hold
    · rw [if_neg hpath]
      exact hold
  · intro half q hq
    rw [hlook]
    by_cases hpath : q = r.path g
    · rw [if_pos hpath, Half.read_clearFields]
      by_cases hw : half.writes r.phase = true
      · rw [if_pos hw]
      · rw [if_neg hw, ← hpath]
        refine h.unwritten half q ?_
        intro r' hr' hpath'
        rcases List.mem_cons.1 hr' with rfl | hr'
        · simpa using hw
        · exact hq r' hr' hpath'
    · rw [if_neg hpath]
      refine h.unwritten half q ?_
      intro r' hr' hpath'
      rcases List.mem_cons.1 hr' with rfl | hr'
      · exact absurd hpath'.symm hpath
      · exact hq r' hr' hpath'

theorem maintained : Maintained g (Compatible g) (Matches g) where
  symm := Compatible.symm
  perm := perm
  register := register
  unregister := unregister

end Matches

/-! ## Regions in a window -/

/-- The region is as `addRegion` or `addRegionChunks` built it, has at least the size of a slot and
lies in the `2^39`-aligned window `W`. -/
structure Fits (g : Geometry) (W : Nat) (region : ShamblesRegion) : Prop where
  extent : extent region = some (region.start, wrap64 (region.start + region.size))
  size : 2 ^ g.regionShift ≤ region.size
  bound : region.start + region.size ≤ 2 ^ 64
  window : W * 2 ^ 39 ≤ region.start ∧ region.start + region.size ≤ (W + 1) * 2 ^ 39

/-- The two regions share no byte. -/
def RangesApart (r r' : ShamblesRegion) : Prop :=
  r.start + r.size ≤ r'.start ∨ r'.start + r'.size ≤ r.start

theorem div_window {W a : Nat} (hlo : W * 2 ^ 39 ≤ a) (hhi : a < (W + 1) * 2 ^ 39) :
    a / 2 ^ 39 = W :=
  Nat.div_eq_of_lt_le hlo hhi

namespace Fits

variable {g : Geometry} {W : Nat} {region region' : ShamblesRegion} {p p' : RegionPtr}
  {r r' : Registration}

/-- A registration of a region lies inside it. -/
theorem mem_registrations (hg : g.Regular) (h : Fits g W region)
    (hr : r ∈ registrations g p region) :
    r.reg = p ∧ r.addr = region.start ∧ r.endAddr = wrap64 (region.start + region.size) ∧
      (r.addr0, r.phase) ∈ slots g region.start (wrap64 (region.start + region.size)) ∧
      r.addr0 / 2 ^ 39 = W ∧ r.addr0 < 2 ^ 64 := by
  simp only [registrations, h.extent, registrationsOf] at hr
  rcases List.mem_map.1 hr with ⟨⟨addr0, phase⟩, hslot, rfl⟩
  have hin := mem_slots_covers hg h.size h.bound hslot
  have hwindow := h.window
  have hbound := h.bound
  have hwin : addr0 / 2 ^ 39 = W := div_window (by omega) (by omega)
  have hlt : addr0 < 2 ^ 64 := by omega
  exact ⟨rfl, rfl, rfl, hslot, hwin, hlt⟩

/-- Registrations of one region are in different slots. -/
theorem pairwise (hg : g.Regular) (hfull : 39 ≤ g.nonLeafShift0) (h : Fits g W region) :
    (registrations g p region).Pairwise (Compatible g) := by
  have hslots : (registrations g p region).Pairwise
      fun r r' => g.slot r.addr0 < g.slot r'.addr0 := by
    simp only [registrations, h.extent, registrationsOf, List.pairwise_map]
    exact slots_pairwise hg h.size h.bound
  refine hslots.imp_of_mem ?_
  intro r r' hr hr' hlt hpath
  rcases h.mem_registrations hg hr with ⟨_, _, _, _, hwin, hbound⟩
  rcases h.mem_registrations hg hr' with ⟨_, _, _, _, hwin', hbound'⟩
  have hslot := (hg.path_eq_iff_slot_eq hfull hbound hbound' (hwin.trans hwin'.symm)).1 hpath
  omega

/-- Registrations of two disjoint regions do not meet in one half of a record: both regions would
cover the same byte at an end of the slot. -/
theorem compatible (hg : g.Regular) (hfull : 39 ≤ g.nonLeafShift0) (h : Fits g W region)
    (h' : Fits g W region') (hapart : RangesApart region region')
    (hr : r ∈ registrations g p region) (hr' : r' ∈ registrations g p' region') :
    Compatible g r r' := by
  rcases h.mem_registrations hg hr with ⟨_, _, _, hmem, hwin, hbound⟩
  rcases h'.mem_registrations hg hr' with ⟨_, _, _, hmem', hwin', hbound'⟩
  have hin := mem_slots_covers hg h.size h.bound hmem
  have hin' := mem_slots_covers hg h'.size h'.bound hmem'
  intro hpath half hboth
  have hslot := (hg.path_eq_iff_slot_eq hfull hbound hbound' (hwin.trans hwin'.symm)).1 hpath
  have hends := g.slot_bounds r.addr0
  have hends' := g.slot_bounds r'.addr0
  unfold RangesApart at hapart
  rw [← hslot] at hin' hends'
  cases half with
  | high =>
      have hlast := hin.2.2.1 hboth.1
      have hlast' := hin'.2.2.1 hboth.2
      rw [Nat.add_mul, Nat.one_mul] at hlast hlast'
      omega
  | low =>
      have hfirst := hin.2.2.2 hboth.1
      have hfirst' := hin'.2.2.2 hboth.2
      omega

end Fits

/-- The state of the region map in the runs this module is about. -/
structure Mapped (g : Geometry) (W : Nat) (s : TreeState g) : Prop where
  tracks : Tracks g (Matches g) s
  fits : ∀ r ∈ s.regions, Fits g W r.2
  disjoint : s.regions.Pairwise fun r r' => RangesApart r.2 r'.2

/-- An event adds nothing outside the window and nothing that overlaps a live region. -/
def StepOk {g : Geometry} (W : Nat) (s : TreeState g) (e : TreeEvent) : Prop :=
  ∀ range ∈ e.range, W * 2 ^ 39 ≤ range.1 ∧ range.1 + range.2 ≤ (W + 1) * 2 ^ 39 ∧
    ∀ r ∈ s.regions, r.2.start + r.2.size ≤ range.1 ∨ range.1 + range.2 ≤ r.2.start

instance {g : Geometry} (W : Nat) (s : TreeState g) (e : TreeEvent) : Decidable (StepOk W s e) :=
  inferInstanceAs (Decidable (∀ range ∈ e.range, _))

/-- The region map in runs that keep the live regions disjoint and inside window `W`. -/
def windowSystem (g : Geometry) (sizeThresshold chunkSize W : Nat) :
    System (TreeState g) TreeEvent :=
  (TreeState.system g sizeThresshold chunkSize).restrict (StepOk W)

instance (g : Geometry) (sizeThresshold chunkSize W : Nat) (s : TreeState g) (e : TreeEvent) :
    Decidable ((windowSystem g sizeThresshold chunkSize W).enabled s e) :=
  inferInstanceAs (Decidable (TreeState.Enabled sizeThresshold chunkSize s e ∧ StepOk W s e))

namespace Mapped

variable {g : Geometry} {sizeThresshold chunkSize W : Nat} {s s' : TreeState g}

theorem init : Mapped g W (TreeState.init g) :=
  ⟨Tracks.init Matches.empty, by simp [TreeState.init], by simp [TreeState.init]⟩

theorem step (hg : g.Regular) (hfull : 39 ≤ g.nonLeafShift0) (hpos : 1 ≤ sizeThresshold)
    (hslot : 2 ^ g.regionShift ≤ sizeThresshold) (h : Mapped g W s) {e : TreeEvent}
    (he : TreeState.Enabled sizeThresshold chunkSize s e) (hok : StepOk W s e)
    (hs' : TreeState.step chunkSize s e = some s') : Mapped g W s' := by
  rcases TreeState.step_cases hpos he hs' with
    ⟨p, region, hfresh, hrange, hsize, hbound, hext, rfl⟩ | ⟨p, region, root', rfl, hlive, hroot', rfl⟩
  · rcases hok _ hrange with ⟨hlo, hhi, hapart⟩
    have hfits : Fits g W region := ⟨hext, by omega, hbound, hlo, hhi⟩
    have hregs : registrations g p region =
        registrationsOf g p region.start (wrap64 (region.start + region.size)) := by
      simp [registrations, hext]
    have hapart' : ∀ r ∈ s.regions, RangesApart region r.2 := fun r hr => (hapart r hr).symm
    refine ⟨h.tracks.add Matches.maintained hfresh hext ?_ ?_, ?_, ?_⟩
    · rw [← hregs]
      exact hfits.pairwise hg hfull
    · intro r hr r' hr'
      rw [← hregs] at hr
      rcases List.mem_flatMap.1 hr' with ⟨x, hx, hr'⟩
      exact hfits.compatible hg hfull (h.fits x hx) (hapart' x hx) hr hr'
    · intro r hr
      rcases List.mem_cons.1 hr with rfl | hr
      · exact hfits
      · exact h.fits r hr
    · exact List.pairwise_cons.2 ⟨hapart', h.disjoint⟩
  · rcases h.tracks.delete Matches.maintained hlive with ⟨root'', hroot'', hnext⟩
    obtain rfl : root'' = root' := Option.some.inj (hroot''.symm.trans hroot')
    refine ⟨hnext, ?_, ?_⟩
    · intro r hr
      exact h.fits r (List.mem_of_mem_filter hr)
    · exact h.disjoint.filter _

theorem run (hg : g.Regular) (hfull : 39 ≤ g.nonLeafShift0) (hpos : 1 ≤ sizeThresshold)
    (hslot : 2 ^ g.regionShift ≤ sizeThresshold) {es : List TreeEvent}
    (h : Run (windowSystem g sizeThresshold chunkSize W) (TreeState.init g) es s) :
    Mapped g W s := by
  refine Run.invariant_state init ?_ h
  intro s e s' hs hen hst
  exact hs.step hg hfull hpos hslot hen.1 hen.2 hst

end Mapped

/-! ## `getRegion` -/

/-- The two comparisons of `getRegion`. -/
def answer (rn : RegionNode) (addr : Nat) : Option RegionPtr :=
  if rn.highAddr ≤ addr then rn.highReg else if addr < rn.lowAddr then rn.lowReg else none

/-- The slot record of an address; an unallocated array reads like a zeroed one. -/
def record (g : Geometry) (root : Root g) (addr : Nat) : RegionNode :=
  Forest.look RegionNode.zero (g.path addr) root

theorem getRegion_eq (g : Geometry) (root : Root g) (addr : Nat) :
    getRegion g root addr = answer (record g root addr) addr := by
  have hlook : record g root addr =
      (Forest.find (g.path addr) root).getD RegionNode.zero := rfl
  rw [getRegion, findSlot_eq, hlook]
  cases Forest.find (g.path addr) root with
  | none => simp [answer, RegionNode.zero]
  | some rn => rfl

/-- `region` has a registration of this phase in the slot of `a`. -/
def RegisteredAt (g : Geometry) (region : ShamblesRegion) (phase : Phase) (a : Nat) : Prop :=
  ∃ addr0, (addr0, phase) ∈ slots g region.start (wrap64 (region.start + region.size)) ∧
    g.slot addr0 = g.slot a

namespace Mapped

variable {g : Geometry} {W : Nat} {s : TreeState g} {a : Nat} {p : RegionPtr}
  {region : ShamblesRegion} {phase : Phase}

/-- Who has written a half of the record of `a`: a live region with a registration in its slot, or
nobody. -/
theorem writer (hg : g.Regular) (hfull : 39 ≤ g.nonLeafShift0) (h : Mapped g W s)
    (ha : a / 2 ^ 39 = W) (hlt : a < 2 ^ 64) (half : Half) :
    (∃ p region phase, (p, region) ∈ s.regions ∧ RegisteredAt g region phase a ∧
        half.writes phase = true ∧ half.read (record g s.root a) =
          (some p, half.pick region.start (wrap64 (region.start + region.size)))) ∨
      half.read (record g s.root a) = (none, 0) := by
  rcases h.tracks.tree.written_or half (g.path a) with ⟨r, hr, hpath, hw, hread⟩ | ⟨_, hread⟩
  · rcases List.mem_flatMap.1 hr with ⟨⟨q, region⟩, hregion, hr'⟩
    rcases (h.fits _ hregion).mem_registrations hg hr' with ⟨hreg, haddr, hend, hmem, hwin, hbound⟩
    have hslot := (hg.path_eq_iff_slot_eq hfull hbound hlt (hwin.trans ha.symm)).1 hpath
    refine Or.inl ⟨q, region, r.phase, hregion, ⟨r.addr0, hmem, hslot⟩, hw, ?_⟩
    rw [hreg, haddr, hend] at hread
    exact hread
  · exact Or.inr hread

/-- What a live region has written in its slots is still there. -/
theorem written (hg : g.Regular) (hfull : 39 ≤ g.nonLeafShift0) (h : Mapped g W s)
    (ha : a / 2 ^ 39 = W) (hlt : a < 2 ^ 64) (hregion : (p, region) ∈ s.regions)
    (hat : RegisteredAt g region phase a) (half : Half) (hw : half.writes phase = true) :
    half.read (record g s.root a) =
      (some p, half.pick region.start (wrap64 (region.start + region.size))) := by
  rcases hat with ⟨addr0, hmem, hslot⟩
  have hfits : Fits g W region := h.fits _ hregion
  have hr : (⟨addr0, phase, p, region.start, wrap64 (region.start + region.size)⟩ : Registration) ∈
      registrations g p region := by
    simp only [registrations, hfits.extent, registrationsOf]
    exact List.mem_map.2 ⟨(addr0, phase), hmem, rfl⟩
  rcases hfits.mem_registrations hg hr with ⟨_, _, _, _, hwin, hbound⟩
  have hpath : g.path addr0 = g.path a :=
    (hg.path_eq_iff_slot_eq hfull hbound hlt (hwin.trans ha.symm)).2 hslot
  have hread := h.tracks.tree.written half _ (List.mem_flatMap.2 ⟨_, hregion, hr⟩) hw
  rw [record, ← hpath]
  exact hread

/-- The two ways to a non-NULL answer, with the region that has written what they read. -/
theorem answer_cases (hg : g.Regular) (hfull : 39 ≤ g.nonLeafShift0) (h : Mapped g W s)
    (ha : a / 2 ^ 39 = W) (hlt : a < 2 ^ 64) (hget : getRegion g s.root a = some p) :
    ∃ region phase, (p, region) ∈ s.regions ∧ RegisteredAt g region phase a ∧
      ((phase.high = true ∧ region.start ≤ a) ∨
        (phase.low = true ∧ a < wrap64 (region.start + region.size) ∧
          a < (record g s.root a).highAddr)) := by
  rw [getRegion_eq, answer] at hget
  by_cases hhigh : (record g s.root a).highAddr ≤ a
  · rw [if_pos hhigh] at hget
    rcases h.writer hg hfull ha hlt .high with ⟨q, region, phase, hregion, hat, hw, hread⟩ | hread
    · rcases Prod.mk.inj hread with ⟨hreg, haddr⟩
      obtain rfl : q = p := Option.some.inj (hreg.symm.trans hget)
      refine ⟨region, phase, hregion, hat, Or.inl ⟨hw, ?_⟩⟩
      rw [haddr] at hhigh
      exact hhigh
    · rw [(Prod.mk.inj hread).1] at hget
      cases hget
  · rw [if_neg hhigh] at hget
    by_cases hlow : a < (record g s.root a).lowAddr
    · rw [if_pos hlow] at hget
      rcases h.writer hg hfull ha hlt .low with ⟨q, region, phase, hregion, hat, hw, hread⟩ | hread
      · rcases Prod.mk.inj hread with ⟨hreg, haddr⟩
        obtain rfl : q = p := Option.some.inj (hreg.symm.trans hget)
        refine ⟨region, phase, hregion, hat, Or.inr ⟨hw, ?_, Nat.lt_of_not_le hhigh⟩⟩
        rw [haddr] at hlow
        exact hlow
      · rw [(Prod.mk.inj hread).1] at hget
        cases hget
    · rw [if_neg hlow] at hget
      cases hget

/-- The answer of `getRegion` is a live region, and the address lies in it: the region covers the
last byte of the slot if the high half named it and the first byte if the low half did. -/
theorem getRegion_sound (hg : g.Regular) (hfull : 39 ≤ g.nonLeafShift0) (h : Mapped g W s)
    (ha : a / 2 ^ 39 = W) (hlt : a < 2 ^ 64) (hget : getRegion g s.root a = some p) :
    ∃ region, s.regions.lookup p = some region ∧ region.start ≤ a ∧
      a < region.start + region.size := by
  rcases h.answer_cases hg hfull ha hlt hget with ⟨region, phase, hregion, ⟨addr0, hmem, hslot⟩, hcase⟩
  have hfits : Fits g W region := h.fits _ hregion
  have hcovers := mem_slots_covers hg hfits.size hfits.bound hmem
  have hends := g.slot_bounds a
  refine ⟨region, lookup_of_mem h.tracks.keys hregion, ?_⟩
  rw [hslot] at hcovers
  rcases hcase with ⟨hw, hstart⟩ | ⟨hw, hend, _⟩
  · have hlast := hcovers.2.2.1 hw
    rw [Nat.add_mul, Nat.one_mul] at hlast
    omega
  · have hfirst := hcovers.2.2.2 hw
    have hwrap : wrap64 (region.start + region.size) ≤ region.start + region.size :=
      Nat.mod_le _ _
    omega

end Mapped

/-- Soundness of the lookup, in every state reached with disjoint regions in one window. -/
theorem getRegion_sound_of_run {sizeThresshold chunkSize W : Nat} {w : Int}
    (hpos : 1 ≤ sizeThresshold) (hsize : sizeThresshold < 2 ^ 48)
    (hfull : 39 ≤ (shamblesStructsInit sizeThresshold w).nonLeafShift0) {es : List TreeEvent}
    {s : TreeState (shamblesStructsInit sizeThresshold w)}
    (h : Run (windowSystem (shamblesStructsInit sizeThresshold w) sizeThresshold chunkSize W)
      (TreeState.init _) es s) {a : Nat} (hlo : W * 2 ^ 39 ≤ a) (hhi : a < (W + 1) * 2 ^ 39)
    (hlt : a < 2 ^ 64) {p : RegionPtr} (hget : getRegion _ s.root a = some p) :
    ∃ region, s.regions.lookup p = some region ∧ region.start ≤ a ∧
      a < region.start + region.size := by
  have hg := Geometry.regular_init w hpos hsize
  have hmapped := Mapped.run hg hfull hpos (Geometry.slot_le_threshold w hpos (by omega)) h
  exact hmapped.getRegion_sound hg hfull (div_window hlo hhi) hlt hget

/-- Two regions that share a slot, and a lookup that ends in the low half of its record. -/
theorem getRegion_sound_of_run_shared_slot :
    ∃ s : TreeState (shamblesStructsInit 0x10000 (-1)),
      Run (windowSystem (shamblesStructsInit 0x10000 (-1)) 0x10000 0x8000 0) (TreeState.init _)
        [.addRegion 1 0x800 0x18000 0x20000, .addRegion 2 0x900 0x3a000 0x20000] s ∧
      getRegion _ s.root 0x34000 = some 1 ∧
      ∃ region, s.regions.lookup 1 = some region ∧ region.start ≤ 0x34000 ∧
        0x34000 < region.start + region.size := by
  rcases Run.of_exec (windowSystem (shamblesStructsInit 0x10000 (-1)) 0x10000 0x8000 0)
    (TreeState.init _)
    [.addRegion 1 0x800 0x18000 0x20000, .addRegion 2 0x900 0x3a000 0x20000] (by decide) with
    ⟨s, hs, hrun⟩
  have hget : getRegion _ s.root 0x34000 = some 1 := by
    obtain rfl := Option.some.inj hs
    decide
  exact ⟨s, hrun, hget, getRegion_sound_of_run (by decide) (by decide) (by decide) hrun (by decide)
    (by decide) (by decide) hget⟩

end Structures
end Shambles
