import Shambles.Structures.Registrations

/-!
# Refcounts — reference counting in the region map

For any threshold below `2^48`, and for any regions (they may overlap or share paths), the counter
of every node is the number of registrations of live regions that pass through it, and its array is
allocated exactly while that number is positive.  Records may be overwritten by another region on
the same path, so a record does not say everything; but what it names is live.
-/

namespace Shambles
namespace Structures

open RadixTree AssocList

/-- The counters count the ledger, and whatever a record names has a registration for it. -/
structure Holds (g : Geometry) (root : Root g) (rs : List Registration) : Prop where
  counted : Forest.Counted root (rs.map (Registration.path g))
  named : ∀ half q p, (Half.read half (Forest.look RegionNode.zero q root)).1 = some p →
    ∃ r ∈ rs, r.path g = q ∧ half.writes r.phase = true ∧ r.reg = p

namespace Holds

variable {g : Geometry} {root : Root g} {r : Registration} {rs rs' : List Registration}

theorem empty : Holds g (Forest.empty _) [] := by
  refine ⟨Forest.counted_empty _, ?_⟩
  intro half q p hp
  simp [Forest.look_empty] at hp

theorem perm (h : Holds g root rs) (hperm : rs.Perm rs') : Holds g root rs' := by
  refine ⟨h.counted.perm (hperm.map _), ?_⟩
  intro half q p hp
  rcases h.named half q p hp with ⟨r, hr, hrest⟩
  exact ⟨r, hperm.mem_iff.1 hr, hrest⟩

theorem register (h : Holds g root rs) (r : Registration) :
    Holds g (register g root r) (r :: rs) := by
  rw [register_eq]
  refine ⟨h.counted.visit _ _ _, ?_⟩
  intro half q p hp
  rw [Forest.look_visit] at hp
  by_cases hq : q = r.path g
  · subst hq
    rw [if_pos rfl, Half.read_setFields] at hp
    by_cases hw : half.writes r.phase = true
    · exact ⟨r, by simp, rfl, hw, by simpa [hw] using hp⟩
    · rcases h.named half _ p (by simpa [hw] using hp) with ⟨r', hr', hrest⟩
      exact ⟨r', by simp [hr'], hrest⟩
  · rw [if_neg hq] at hp
    rcases h.named half q p hp with ⟨r', hr', hrest⟩
    exact ⟨r', by simp [hr'], hrest⟩

/-- A record that survives the deletion of `r` names a registration other than `r`: the halves `r`
has written are cleared. -/
theorem unregister (h : Holds g root (r :: rs)) :
    ∃ root', unregister g root r = some root' ∧ Holds g root' rs := by
  rcases h.counted.leave (clearFields r.phase) with ⟨root', hroot', hcounted⟩
  refine ⟨root', by rw [unregister_eq]; exact hroot', hcounted, ?_⟩
  intro half q p hp
  rcases Forest.look_leave_or RegionNode.zero _ hroot' q with hfreed | hkept
  · rw [hfreed] at hp
    simp at hp
  · rw [hkept] at hp
    by_cases hq : q = r.path g
    · subst hq
      rw [if_pos rfl, Half.read_clearFields] at hp
      by_cases hw : half.writes r.phase = true
      · simp [hw] at hp
      · rcases h.named half _ p (by simpa [hw] using hp) with ⟨r', hr', hpath, hw', hreg⟩
        rcases List.mem_cons.1 hr' with rfl | hmem
        · exact absurd hw' hw
        · exact ⟨r', hmem, hpath, hw', hreg⟩
    · rw [if_neg hq] at hp
      rcases h.named half q p hp with ⟨r', hr', hpath, hrest⟩
      rcases List.mem_cons.1 hr' with rfl | hmem
      · exact absurd hpath.symm hq
      · exact ⟨r', hmem, hpath, hrest⟩

theorem maintained : Maintained g (fun _ _ => True) (Holds g) where
  symm := fun _ => trivial
  perm := perm
  register := fun h _ => h.register _
  unregister := unregister

end Holds

/-! ## Runs -/

section Runs

variable {g : Geometry} {sizeThresshold chunkSize : Nat} {s : TreeState g} {es : List TreeEvent}

/-- Every event that can happen has an outcome: no NULL array is followed and no counter at zero
is decremented. -/
theorem Tracks.step_holds (h : Tracks g (Holds g) s) {e : TreeEvent}
    (he : TreeState.Enabled sizeThresshold chunkSize s e) :
    ∃ s', TreeState.step chunkSize s e = some s' := by
  cases e with
  | addRegion p chunksPtr addr size => exact ⟨_, rfl⟩
  | addRegionChunks p chunksPtr addr size chunkSizes => exact ⟨_, rfl⟩
  | deleteRegion p =>
      rcases Option.ne_none_iff_exists'.1 he with ⟨region, hregion⟩
      rcases h.delete Holds.maintained hregion with ⟨root', hroot', _⟩
      refine ⟨⟨root', s.regions.filter fun r => r.1 ≠ p⟩, ?_⟩
      simp [TreeState.step, hregion, hroot']

theorem Tracks.next_holds (hpos : 1 ≤ sizeThresshold) {s' : TreeState g} {e : TreeEvent}
    (hs : Tracks g (Holds g) s) (hen : TreeState.Enabled sizeThresshold chunkSize s e)
    (hst : TreeState.step chunkSize s e = some s') : Tracks g (Holds g) s' := by
  rcases TreeState.step_cases hpos hen hst with
    ⟨p, region, hfresh, _, _, _, hext, rfl⟩ | ⟨p, region, root', rfl, hlive, hroot', rfl⟩
  · refine hs.add Holds.maintained hfresh hext ?_ (fun _ _ _ _ => trivial)
    exact List.pairwise_of_forall fun _ _ => trivial
  · rcases hs.delete Holds.maintained hlive with ⟨root'', hroot'', hnext⟩
    obtain rfl : root'' = root' := Option.some.inj (hroot''.symm.trans hroot')
    exact hnext

theorem Tracks.run_holds (hpos : 1 ≤ sizeThresshold)
    (h : Run (TreeState.system g sizeThresshold chunkSize) (TreeState.init g) es s) :
    Tracks g (Holds g) s :=
  Run.invariant_state (Tracks.init Holds.empty) (fun _ _ _ hs hen hst => hs.next_holds hpos hen hst)
    h

/-- Every path starts at entry 0, so no registration passes through another entry. -/
theorem Tracks.one_entry (hreg : g.Regular) (h : Tracks g (Holds g) s) {i : Nat} (hi : i ≠ 0) :
    s.root i = Tree.empty _ := by
  have hnone : below i ((ledger g s.regions).map (Registration.path g)) = [] := by
    apply List.eq_nil_iff_forall_not_mem.2
    intro q hq
    rcases List.mem_map.1 (mem_below.1 hq) with ⟨r, _, hpath⟩
    have hroot : (r.path g).1 = 0 := hreg.rootIndex_eq_zero r.addr0
    rw [hpath] at hroot
    exact hi hroot
  have hcounts := h.tree.counted i
  rw [hnone] at hcounts
  exact hcounts.eq_empty

theorem Tracks.named_live (h : Tracks g (Holds g) s) {half : Half}
    {q : RadixTree.Path (g.nonLeafNodesDepth + 1)} {rn : RegionNode} {p : RegionPtr}
    (hfind : Forest.find q s.root = some rn) (hp : (half.read rn).1 = some p) :
    s.regions.lookup p ≠ none := by
  have hlook : Forest.look RegionNode.zero q s.root = rn := by
    have hget : (Forest.find q s.root).getD RegionNode.zero = rn := by simp [hfind]
    exact hget
  rcases h.tree.named half q p (by rw [hlook]; exact hp) with ⟨r, hr, _, _, rfl⟩
  rcases mem_ledger g hr with ⟨region, hregion, _⟩
  intro hnone
  exact notMem_keys_of_lookup hnone (List.mem_map.2 ⟨_, hregion, rfl⟩)

/-- `getRegion` answers with live regions only. -/
theorem Tracks.getRegion_live (h : Tracks g (Holds g) s) {addr : Nat} {p : RegionPtr}
    (hget : getRegion g s.root addr = some p) : s.regions.lookup p ≠ none := by
  unfold getRegion at hget
  cases hfind : findSlot g s.root addr with
  | none => simp [hfind] at hget
  | some rn =>
      have hpath : Forest.find (g.path addr) s.root = some rn := by rw [← findSlot_eq, hfind]
      simp only [hfind] at hget
      split at hget
      · have hhigh : (Half.high.read rn).1 = some p := hget
        exact h.named_live hpath hhigh
      · split at hget
        · have hlow : (Half.low.read rn).1 = some p := hget
          exact h.named_live hpath hlow
        · simp at hget

theorem Tracks.all_freed (h : Tracks g (Holds g) s) (hnil : s.regions = []) :
    s.root = Forest.empty _ := by
  have hcounted := h.tree.counted
  rw [hnil] at hcounted
  funext i
  exact (hcounted i).eq_empty

/-- What reference counting promises about a state of the region map. -/
structure RefcountsExact (g : Geometry) (sizeThresshold chunkSize : Nat) (s : TreeState g) :
    Prop where
  /-- Every counter is the number of registrations of live regions through its node, and an array
  is allocated exactly when its counter is positive. -/
  counted : Forest.Counted s.root ((ledger g s.regions).map (Registration.path g))
  /-- Only the first entry of `root` is used. -/
  one_entry : ∀ i, i ≠ 0 → s.root i = Tree.empty _
  named_live : ∀ half q rn p, Forest.find q s.root = some rn → (Half.read half rn).1 = some p →
    s.regions.lookup p ≠ none
  defined : ∀ e, TreeState.Enabled sizeThresshold chunkSize s e →
    ∃ s', TreeState.step chunkSize s e = some s'
  all_freed : s.regions = [] → s.root = Forest.empty _

end Runs

/-- In every state reached by additions and deletions. -/
theorem refcounts_exact {sizeThresshold chunkSize : Nat} {w : Int} (hpos : 1 ≤ sizeThresshold)
    (hsize : sizeThresshold < 2 ^ 48) {es : List TreeEvent}
    {s : TreeState (shamblesStructsInit sizeThresshold w)}
    (h : Run (TreeState.system (shamblesStructsInit sizeThresshold w) sizeThresshold chunkSize)
      (TreeState.init _) es s) :
    RefcountsExact (shamblesStructsInit sizeThresshold w) sizeThresshold chunkSize s := by
  have htracks := Tracks.run_holds hpos h
  have hreg := Geometry.regular_init w hpos hsize
  refine ⟨htracks.tree.counted, ?_, ?_, ?_, htracks.all_freed⟩
  · intro i hi
    exact htracks.one_entry hreg hi
  · intro half q rn p hfind hp
    exact htracks.named_live hfind hp
  · intro e he
    exact htracks.step_holds he

/-- Two overlapping regions, the second cut by hand; the first is deleted again. -/
theorem refcounts_exact_overlapping :
    ∃ s, Run (TreeState.system (shamblesStructsInit 0x10000 (-1)) 0x10000 0x8000)
        (TreeState.init _)
        [.addRegion 1 0x800 0x18000 0x20000,
          .addRegionChunks 2 0x900 0x20000 0x18000 [0x10000, 0x8000], .deleteRegion 1] s ∧
      RefcountsExact (shamblesStructsInit 0x10000 (-1)) 0x10000 0x8000 s := by
  rcases Run.of_exec (TreeState.system (shamblesStructsInit 0x10000 (-1)) 0x10000 0x8000)
    (TreeState.init _)
    [.addRegion 1 0x800 0x18000 0x20000,
      .addRegionChunks 2 0x900 0x20000 0x18000 [0x10000, 0x8000], .deleteRegion 1]
    (by decide) with ⟨s, _, hrun⟩
  exact ⟨s, hrun, refcounts_exact (by decide) (by decide) hrun⟩

end Structures
end Shambles
