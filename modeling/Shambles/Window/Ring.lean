import Shambles.Lib.RingBuffer
import Shambles.Window.Allocation
import Shambles.Window.Frame

/-!
# Ring — the ring of samples and the counts

The count of a node is meant to be the number of entries of `samples` that point to its chunk.
Samples and allocations keep that up in every state, whether the lists are in order or not.  A
release is different: it does not go by the nodes of the region but clears the entries whose chunk
starts between the start of the region and `start + chunkSize * nChunks`, both included, computed
modulo `2^64`.

* `RangeFits`: where the chunks in the ring have to lie for that to be right, in terms of the
  addresses of the live regions.
* `ring_agrees_iff`: ring and counts agree in a whole run as long as the range of every release fits
  the ring, and not one release longer.
* `ring_keeps_freed`: with the default chunk size the range wraps around.
-/

namespace Shambles
namespace Window

open AssocList Plugins RingBuffer Structures

/-! ## Shape -/

/-- The arrays have the lengths they were allocated with. -/
structure Shaped (W : Nat) (s : State) : Prop where
  window : s.windowSize = W
  ring_length : s.samples.length = W
  currentLoc : s.currentLoc < W
  tails_length : s.tails.length = W + 1

namespace Shaped

variable {W : Nat} {s s' : State}

theorem init {W : Nat} (hW : 1 ≤ W) (fastChunks chunkSize : Nat) :
    Shaped W (windowInit fastChunks chunkSize W) :=
  ⟨rfl, List.length_replicate, hW, List.length_replicate⟩

theorem currentLoc_lt (h : Shaped W s) : s.currentLoc < s.samples.length := by
  rw [h.ring_length]
  exact h.currentLoc

theorem entry (h : Shaped W s) : ∃ old, s.samples[s.currentLoc]? = some old :=
  ⟨_, List.getElem?_eq_getElem h.currentLoc_lt⟩

theorem quiet (h : Shaped W s) (hquiet : Quiet s s') : Shaped W s' where
  window := hquiet.rest.windowSize.trans h.window
  ring_length := by
    rw [hquiet.rest.samples]
    exact h.ring_length
  currentLoc := by
    rw [hquiet.rest.currentLoc]
    exact h.currentLoc
  tails_length := hquiet.tails_length.trans h.tails_length

end Shaped

/-! ## Regions -/

theorem allocRegion_regions {s s' : State} {p : RegionPtr} {region : ShamblesRegion}
    (h : allocRegion s p region = some s') : s'.regions = (p, region) :: s.regions := by
  have htail := Untouched.setTail h
  exact htail.rest.regions.trans
    ((placeFast_sameIndex _ _).trans (placeSlow_sameIndex _ _)).regions

theorem freeRegion_regions {s s' : State} {p : RegionPtr} {region : ShamblesRegion}
    (h : freeRegion s p region = some s') :
    s'.regions = s.regions.filter fun r => r.1 ≠ p := by
  rcases Option.bind_eq_some_iff.1 h with ⟨s₂, hs₂, h⟩
  obtain rfl := Option.some.inj h
  have hsame : s₂.regions = s.regions := (Untouched.freeChunks hs₂).rest.regions
  show s₂.regions.filter _ = _
  rw [hsame]

theorem handleSample_regions {s s' : State} {addr : Nat} {chunk : Option NodePtr}
    (h : handleSample s addr chunk = some s') : s'.regions = s.regions := by
  cases chunk with
  | none =>
      obtain rfl := Option.some.inj h
      rfl
  | some x =>
      rcases handleSample_cases h with
        ⟨old, -, ⟨rfl, rfl⟩ | ⟨-, s₂, s₃, s₄, hs₂, hs₃, hs₄, rfl⟩⟩
      · rfl
      · have hring : s₃.regions = s₂.regions := by
          unfold State.setSample at hs₃
          split at hs₃
          · obtain rfl := Option.some.inj hs₃
            rfl
          · cases hs₃
        exact (promote_counts hs₄).1.rest.regions.trans
          (hring.trans (leaveRing_counts hs₂).1.rest.regions)

/-! ## Samples -/

/-- What a tracked sample of `x` does outside the lists. -/
structure SampleEffect (W : Nat) (s s' : State) (x : NodePtr) : Prop where
  shaped : Shaped W s'
  samples : s'.samples = s.samples.set s.currentLoc (some x)
  counted : ∀ n, s.count n = s.samples.count (some n) → s'.count n = s'.samples.count (some n)
  chunk : s'.chunk = s.chunk
  chunkSize : s'.chunkSize = s.chunkSize
  regions : s'.regions = s.regions

theorem setSample_eq {W : Nat} {s : State} (h : Shaped W s) (x : NodePtr) :
    s.setSample x = some { s with samples := s.samples.set s.currentLoc (some x) } := by
  rw [State.setSample, if_pos h.currentLoc_lt]
  rfl

theorem Shaped.advance {W : Nat} {s : State} (h : Shaped W s) : Shaped W s.advance where
  window := h.window
  ring_length := h.ring_length
  currentLoc := by
    show (s.currentLoc + 1) % s.windowSize < W
    rw [h.window]
    exact Nat.mod_lt _ (Nat.zero_lt_of_lt h.currentLoc)
  tails_length := h.tails_length

theorem handleSample_effect {W : Nat} {s s' : State} {addr : Nat} {x : NodePtr}
    (hshape : Shaped W s) (h : handleSample s addr (some x) = some s') :
    SampleEffect W s s' x := by
  have hlogged : Shaped W (logged s addr x) := hshape.quiet (Quiet.emit s _)
  have hregions := handleSample_regions h
  rcases handleSample_cases h with
    ⟨old, hentry, ⟨rfl, rfl⟩ | ⟨hdiff, s₂, s₃, s₄, hs₂, hs₃, hs₄, rfl⟩⟩
  -- The entry is overwritten with itself, or one chunk is demoted and `x` promoted.
  · exact ⟨hlogged.advance, (set_eq_self hentry).symm, fun n hn => hn, rfl, rfl, hregions⟩
  · rcases leaveRing_counts hs₂ with ⟨hquiet₂, hcount₂⟩
    have hshape₂ : Shaped W s₂ := hlogged.quiet hquiet₂
    rw [setSample_eq hshape₂] at hs₃
    obtain rfl := Option.some.inj hs₃
    rcases promote_counts hs₄ with ⟨hquiet₄, hcount₄⟩
    have hsamples : s₄.samples = s.samples.set s.currentLoc (some x) := by
      rw [hquiet₄.rest.samples, hquiet₂.rest.samples, hquiet₂.rest.currentLoc]
      rfl
    refine ⟨?_, hsamples, ?_, ?_, ?_, hregions⟩
    · refine Shaped.advance (Shaped.quiet ?_ hquiet₄)
      exact ⟨hshape₂.window, by simpa using hshape₂.ring_length, hshape₂.currentLoc,
        hshape₂.tails_length⟩
    · intro n hn
      show s₄.count n = s₄.samples.count (some n)
      -- the overwritten entry is one less, the new one is one more
      have hleft : s₂.count n = (s.samples.set s.currentLoc none).count (some n) := by
        rw [hcount₂, count_set_none hshape.currentLoc_lt, hentry, ← hn]
        simp [logged, State.emit]
      rw [hsamples, count_set_some hshape.currentLoc_lt, hcount₄]
      by_cases hxn : x = n
      · subst hxn
        simp [hleft]
      · have hnx : n ≠ x := fun h => hxn h.symm
        simp [hxn, hnx, hleft]
    · exact hquiet₄.rest.chunk.trans hquiet₂.rest.chunk
    · exact hquiet₄.chunkSize.trans hquiet₂.chunkSize

/-! ## Allocations -/

structure AllocEffect (W : Nat) (s s' : State) (p : RegionPtr) (region : ShamblesRegion) : Prop where
  shaped : Shaped W s'
  samples : s'.samples = s.samples
  count : ∀ n, s'.count n = if n.region = p ∧ n.index < region.nChunks then 0 else s.count n
  chunk : s'.chunk = (initNodes { s with regions := (p, region) :: s.regions } p region).chunk
  chunkSize : s'.chunkSize = s.chunkSize
  regions : s'.regions = (p, region) :: s.regions

theorem placeSlow_chunks (ns : List NodePtr) :
    ∀ s : State, (placeSlow s ns).chunk = s.chunk ∧ (placeSlow s ns).chunkSize = s.chunkSize := by
  induction ns with
  | nil =>
      intro s
      exact ⟨rfl, rfl⟩
  | cons n rest ih =>
      intro s
      exact ih _

theorem placeFast_chunks (ns : List NodePtr) :
    ∀ s : State, (placeFast s ns).1.chunk = s.chunk ∧
      (placeFast s ns).1.chunkSize = s.chunkSize := by
  induction ns with
  | nil =>
      intro s
      exact ⟨rfl, rfl⟩
  | cons n rest ih =>
      intro s
      by_cases hfree : s.freeFastChunks = 0
      · simp [placeFast, hfree]
      · simp only [placeFast, hfree, ne_eq, not_false_eq_true, if_true]
        exact ih _

theorem allocRegion_effect {W : Nat} {s s' : State} {p : RegionPtr} {region : ShamblesRegion}
    (hshape : Shaped W s) (h : allocRegion s p region = some s') :
    AllocEffect W s s' p region := by
  let s₁ := initNodes { s with regions := (p, region) :: s.regions } p region
  let r := placeFast s₁ (nodesOf p region)
  -- The two loops leave counts, ring and `tails` alone; `tails[0]` is written behind them.
  have hindex : SameIndex s₁ (placeSlow r.1 r.2) :=
    (placeFast_sameIndex _ s₁).trans (placeSlow_sameIndex _ _)
  have htail : Untouched (placeSlow r.1 r.2) s' := Untouched.setTail h
  rcases placeFast_chunks (nodesOf p region) s₁ with ⟨hchunk₁, hsize₁⟩
  rcases placeSlow_chunks r.2 r.1 with ⟨hchunk₂, hsize₂⟩
  have hsamples : s'.samples = s.samples := htail.rest.samples.trans hindex.samples
  refine ⟨⟨?_, ?_, ?_, ?_⟩, hsamples, ?_, ?_, ?_, allocRegion_regions h⟩
  · exact (htail.rest.windowSize.trans hindex.windowSize).trans hshape.window
  · rw [hsamples]
    exact hshape.ring_length
  · rw [htail.rest.currentLoc, hindex.currentLoc]
    exact hshape.currentLoc
  · rw [htail.tails_length, hindex.tails]
    exact hshape.tails_length
  · intro n
    rw [htail.count, hindex.count]
    rfl
  · exact htail.rest.chunk.trans (hchunk₂.trans hchunk₁)
  · exact htail.chunkSize.trans (hsize₂.trans hsize₁)

/-! ## Releases -/

/-- The test of the loop over `samples`, for an entry that points to the chunk of `n`. -/
def Purged (s : State) (region : ShamblesRegion) (n : NodePtr) : Prop :=
  region.start ≤ (s.chunk n).chunk.start ∧
    (s.chunk n).chunk.start ≤ wrap64 (region.start + s.chunkSize * region.nChunks)

instance (s : State) (region : ShamblesRegion) (n : NodePtr) : Decidable (Purged s region n) :=
  inferInstanceAs (Decidable (_ ∧ _))

theorem purgeSamples_eq (s : State) (region : ShamblesRegion) :
    (purgeSamples s region).samples =
      s.samples.map (Option.filter fun n => ¬ Purged s region n) := by
  refine List.map_congr_left ?_
  intro entry _
  cases entry with
  | none => rfl
  | some n =>
      by_cases hpurged : Purged s region n
      · have hcond : (s.chunk n).chunk.start ≥ region.start ∧
            (s.chunk n).chunk.start ≤ wrap64 (region.start + s.chunkSize * region.nChunks) := hpurged
        simp [hcond, hpurged, Option.filter]
      · have hcond : ¬ ((s.chunk n).chunk.start ≥ region.start ∧
            (s.chunk n).chunk.start ≤ wrap64 (region.start + s.chunkSize * region.nChunks)) := hpurged
        simp only [hcond, if_false, Option.filter, hpurged, not_false_eq_true, decide_true, if_true]

/-- What a release does outside the lists, where `region` is the one at `p`. -/
structure FreeEffect (W : Nat) (s s' : State) (p : RegionPtr) (region : ShamblesRegion) : Prop where
  shaped : Shaped W s'
  samples : s'.samples = s.samples.map (Option.filter fun n => ¬ Purged s region n)
  count : s'.count = s.count
  chunk : s'.chunk = s.chunk
  chunkSize : s'.chunkSize = s.chunkSize
  regions : s'.regions = s.regions.filter fun r => r.1 ≠ p

theorem freeRegion_effect {W : Nat} {s s' : State} {p : RegionPtr} {region : ShamblesRegion}
    (hshape : Shaped W s) (h : freeRegion s p region = some s') : FreeEffect W s s' p region := by
  have hregions := freeRegion_regions h
  rcases Option.bind_eq_some_iff.1 h with ⟨s₂, hs₂, h⟩
  obtain rfl := Option.some.inj h
  have hsame : Untouched (s.emit (unbind region)) s₂ := Untouched.freeChunks hs₂
  have hchunk : s₂.chunk = s.chunk := hsame.rest.chunk
  have hsize : s₂.chunkSize = s.chunkSize := hsame.chunkSize
  have hsamples : (purgeSamples s₂ region).samples =
      s.samples.map (Option.filter fun n => ¬ Purged s region n) := by
    rw [purgeSamples_eq, hsame.rest.samples]
    simp only [Purged, hchunk, hsize]
    rfl
  refine ⟨⟨?_, ?_, ?_, ?_⟩, hsamples, hsame.count, hchunk, hsize, hregions⟩
  · exact hsame.rest.windowSize.trans hshape.window
  · show (purgeSamples s₂ region).samples.length = W
    rw [hsamples, List.length_map]
    exact hshape.ring_length
  · show s₂.currentLoc < W
    rw [hsame.rest.currentLoc]
    exact hshape.currentLoc
  · exact hsame.tails_length.trans hshape.tails_length

/-! ## Agreement -/

/-- Every entry of the ring points to a chunk of a live region, and the count of every live chunk is
the number of its entries. -/
structure Agrees (s : State) : Prop where
  sampled : ∀ n, some n ∈ s.samples → LiveNode s.regions n
  counted : ∀ n, LiveNode s.regions n → s.count n = s.samples.count (some n)

/-- The release clears the entries of its region, and no others. -/
def ClearsExactly (s : State) (p : RegionPtr) (region : ShamblesRegion) : Prop :=
  ∀ n, some n ∈ s.samples → (Purged s region n ↔ n.region = p)

section Steps

variable {W : Nat} {s s' : State} {p : RegionPtr} {region : ShamblesRegion} {x : NodePtr}

theorem Agrees.init (fastChunks chunkSize W : Nat) : Agrees (windowInit fastChunks chunkSize W) := by
  refine ⟨?_, ?_⟩
  · intro n hn
    simp [windowInit] at hn
  · rintro n ⟨region, hregion, _⟩
    cases hregion

theorem Agrees.sample (h : Agrees s) (heffect : SampleEffect W s s' x)
    (hx : LiveNode s.regions x) : Agrees s' := by
  refine ⟨?_, ?_⟩
  · intro n hn
    rw [heffect.regions]
    rw [heffect.samples] at hn
    rcases List.mem_or_eq_of_mem_set hn with hold | hnew
    · exact h.sampled n hold
    · rw [Option.some.inj hnew]
      exact hx
  · intro n hn
    rw [heffect.regions] at hn
    exact heffect.counted n (h.counted n hn)

theorem liveNode_cons {regions : RegionMap} {n : NodePtr} :
    LiveNode ((p, region) :: regions) n ↔
      (n.region = p ∧ n.index < region.nChunks) ∨ (n.region ≠ p ∧ LiveNode regions n) := by
  simp only [LiveNode, lookup_cons_eq]
  by_cases hp : n.region = p
  · simp [hp]
  · simp [hp]

theorem liveNode_filter {regions : RegionMap} {n : NodePtr} :
    LiveNode (regions.filter fun r => r.1 ≠ p) n ↔ n.region ≠ p ∧ LiveNode regions n := by
  simp only [LiveNode, lookup_filter_ne]
  by_cases hp : n.region = p
  · simp [hp]
  · simp [hp]

theorem Agrees.alloc (h : Agrees s) (heffect : AllocEffect W s s' p region)
    (hfresh : s.regions.lookup p = none) : Agrees s' := by
  -- a chunk in the ring is live, so it is none of the new region
  have hold : ∀ n, some n ∈ s.samples → n.region ≠ p := by
    rintro n hn rfl
    rcases h.sampled n hn with ⟨r, hr, _⟩
    rw [hfresh] at hr
    cases hr
  refine ⟨?_, ?_⟩
  · intro n hn
    rw [heffect.samples] at hn
    rw [heffect.regions, liveNode_cons]
    exact Or.inr ⟨hold n hn, h.sampled n hn⟩
  · intro n hn
    rw [heffect.regions, liveNode_cons] at hn
    rw [heffect.samples, heffect.count]
    rcases hn with hnew | ⟨hne, hlive⟩
    · rw [if_pos hnew]
      refine (List.count_eq_zero.2 ?_).symm
      intro hmem
      exact hold n hmem hnew.1
    · rw [if_neg (fun hnew => hne hnew.1)]
      exact h.counted n hlive

/-- A release keeps ring and counts together exactly if it clears the right entries. -/
theorem Agrees.free_iff (h : Agrees s) (heffect : FreeEffect W s s' p region) :
    Agrees s' ↔ ClearsExactly s p region := by
  have hmem : ∀ n, some n ∈ s'.samples ↔ some n ∈ s.samples ∧ ¬ Purged s region n := by
    intro n
    rw [heffect.samples, mem_map_filter]
    simp
  have hlive : ∀ n, LiveNode s'.regions n ↔ n.region ≠ p ∧ LiveNode s.regions n := by
    intro n
    rw [heffect.regions, liveNode_filter]
  constructor
  · intro h' n hn
    constructor
    · intro hpurged
      by_contra hne
      -- its count is still positive, so it must still have an entry
      have hcount := h'.counted n ((hlive n).2 ⟨hne, h.sampled n hn⟩)
      rw [heffect.count, h.counted n (h.sampled n hn)] at hcount
      have hpos : 0 < s'.samples.count (some n) := hcount ▸ List.count_pos_iff.2 hn
      exact ((hmem n).1 (List.count_pos_iff.1 hpos)).2 hpurged
    · intro hp
      by_contra hkept
      -- its entry stays, but it is not live any more
      exact ((hlive n).1 (h'.sampled n ((hmem n).2 ⟨hn, hkept⟩))).1 hp
  · intro hclears
    refine ⟨?_, ?_⟩
    · intro n hn
      rcases (hmem n).1 hn with ⟨hold, hkept⟩
      exact (hlive n).2 ⟨fun hp => hkept ((hclears n hold).2 hp), h.sampled n hold⟩
    · intro n hn
      rcases (hlive n).1 hn with ⟨hne, hold⟩
      rw [heffect.count, h.counted n hold, heffect.samples]
      by_cases hring : some n ∈ s.samples
      · have hkept : ¬ Purged s region n := fun hpurged => hne ((hclears n hring).1 hpurged)
        exact (count_map_filter (by simpa using hkept)).symm
      · have hgone : some n ∉ s.samples.map (Option.filter fun n => ¬ Purged s region n) := by
          rw [mem_map_filter]
          exact fun hboth => hring hboth.1
        rw [List.count_eq_zero.2 hring, List.count_eq_zero.2 hgone]

end Steps

/-! ## Where a region lies -/

/-- What a run keeps: besides the agreement, where the chunks of the live regions are. -/
structure RingInv (chunkSize W : Nat) (s : State) : Prop where
  shaped : Shaped W s
  agrees : Agrees s
  chunkSize_eq : s.chunkSize = chunkSize
  cut : ∀ p region, s.regions.lookup p = some region → Cut chunkSize region
  chunk_eq : ∀ n region, s.regions.lookup n.region = some region →
    ∀ c, region.chunks[n.index]? = some c → (s.chunk n).chunk = c

theorem RingInv.start_eq {chunkSize W : Nat} {s : State} (h : RingInv chunkSize W s)
    (hpos : 0 < chunkSize) {n : NodePtr} {r : ShamblesRegion}
    (hr : s.regions.lookup n.region = some r) (hindex : n.index < r.nChunks) :
    (s.chunk n).chunk.start = r.start + n.index * chunkSize := by
  obtain ⟨c, hc⟩ : ∃ c, r.chunks[n.index]? = some c := ⟨_, List.getElem?_eq_getElem hindex⟩
  rw [h.chunk_eq n r hr c hc]
  exact (h.cut n.region r hr).start_eq hpos hc

/-! ## The range of a release

`start + chunkSize * nChunks` may pass `2^64`.  The range is then empty, or, if the product alone
passes it, ends short of the second chunk.
-/

/-- Address `a` lies in the range that the release of the region clears. -/
def InRange (chunkSize : Nat) (region : ShamblesRegion) (a : Nat) : Prop :=
  region.start ≤ a ∧
    ((region.start + chunkSize * region.nChunks < 2 ^ 64 ∧
        a ≤ region.start + chunkSize * region.nChunks) ∨
      (2 ^ 64 ≤ chunkSize * region.nChunks ∧
        a + 2 ^ 64 ≤ region.start + chunkSize * region.nChunks))

instance (chunkSize : Nat) (region : ShamblesRegion) (a : Nat) :
    Decidable (InRange chunkSize region a) :=
  inferInstanceAs (Decidable (_ ∧ (_ ∧ _ ∨ _ ∧ _)))

/-- The range reaches chunk `i` of the region itself. -/
def ReachesOwn (chunkSize : Nat) (region : ShamblesRegion) (i : Nat) : Prop :=
  region.start + chunkSize * region.nChunks < 2 ^ 64 ∨
    (2 ^ 64 ≤ chunkSize * region.nChunks ∧ i = 0)

instance (chunkSize : Nat) (region : ShamblesRegion) (i : Nat) :
    Decidable (ReachesOwn chunkSize region i) :=
  inferInstanceAs (Decidable (_ ∨ _ ∧ _))

section Range

variable {chunkSize : Nat} {region : ShamblesRegion}

/-- What the test computes modulo `2^64`. -/
theorem inRange_iff (h : Cut chunkSize region) (hpos : 0 < chunkSize)
    (hmax : chunkSize < 2 ^ 64) (a : Nat) :
    region.start ≤ a ∧ a ≤ wrap64 (region.start + chunkSize * region.nChunks) ↔
      InRange chunkSize region a := by
  have hspan := h.span_lt hpos
  have hend := h.2
  unfold InRange wrap64
  omega

theorem reachesOwn_iff (h : Cut chunkSize region) (hpos : 0 < chunkSize)
    (hmax : chunkSize < 2 ^ 64) {i : Nat} (hi : i < region.nChunks) :
    InRange chunkSize region (region.start + i * chunkSize) ↔ ReachesOwn chunkSize region i := by
  have hspan := h.span_lt hpos
  have hend := h.2
  have hle : i * chunkSize ≤ chunkSize * region.nChunks := by
    rw [Nat.mul_comm i]
    exact Nat.mul_le_mul_left _ hi.le
  unfold InRange ReachesOwn
  rcases Nat.eq_zero_or_pos i with rfl | hpos'
  · omega
  · -- from the second chunk on, a range that has wrapped around ends too early
    have hsecond : 1 * chunkSize ≤ i * chunkSize := Nat.mul_le_mul_right _ hpos'
    omega

end Range

/-- Of the chunks in the ring, the range of the release takes in those of the region and none of
another region. -/
def RangeFits (chunkSize : Nat) (s : State) (p : RegionPtr) (region : ShamblesRegion) : Prop :=
  ∀ n, some n ∈ s.samples → ∀ r, s.regions.lookup n.region = some r →
    if n.region = p then ReachesOwn chunkSize region n.index
    else ¬ InRange chunkSize region (r.start + n.index * chunkSize)

instance (chunkSize : Nat) (s : State) (p : RegionPtr) (region : ShamblesRegion) :
    Decidable (RangeFits chunkSize s p region) :=
  decidable_of_iff (∀ entry ∈ s.samples, ∀ n ∈ entry, ∀ r ∈ s.regions.lookup n.region,
      if n.region = p then ReachesOwn chunkSize region n.index
      else ¬ InRange chunkSize region (r.start + n.index * chunkSize))
    ⟨fun h n hn r hr => h (some n) hn n rfl r hr, fun h _ hentry n hn r hr => h n (hn ▸ hentry) r hr⟩

theorem RingInv.clearsExactly_iff {chunkSize W : Nat} {s : State} {p : RegionPtr}
    {region : ShamblesRegion} (h : RingInv chunkSize W s) (hpos : 0 < chunkSize)
    (hmax : chunkSize < 2 ^ 64) (hregion : s.regions.lookup p = some region) :
    ClearsExactly s p region ↔ RangeFits chunkSize s p region := by
  have hcut := h.cut p region hregion
  refine forall₂_congr ?_
  intro n hn
  rcases h.agrees.sampled n hn with ⟨r, hr, hindex⟩
  have hpurged : Purged s region n ↔
      InRange chunkSize region (r.start + n.index * chunkSize) := by
    rw [Purged, h.chunkSize_eq, h.start_eq hpos hr hindex]
    exact inRange_iff hcut hpos hmax _
  simp only [hr, Option.some.injEq, forall_eq']
  by_cases hp : n.region = p
  · obtain rfl : region = r := by
      rw [hp, hregion] at hr
      exact Option.some.inj hr
    rw [if_pos hp, hpurged, reachesOwn_iff hcut hpos hmax hindex]
    simp [hp]
  · rw [if_neg hp, hpurged]
    simp [hp]

/-! ## Runs -/

/-- Regions are cut by `addRegion`, and the range of a release fits the ring. -/
def PurgeOk (chunkSize : Nat) (s : State) : Event → Prop
  | .alloc _ region => Cut chunkSize region
  | .free p => ∀ region ∈ s.regions.lookup p, RangeFits chunkSize s p region
  | .sample _ _ => True

instance (chunkSize : Nat) (s : State) : (e : Event) → Decidable (PurgeOk chunkSize s e)
  | .alloc _ region => inferInstanceAs (Decidable (Cut chunkSize region))
  | .free p =>
      inferInstanceAs (Decidable (∀ region ∈ s.regions.lookup p, RangeFits chunkSize s p region))
  | .sample _ _ => isTrue trivial

instance (chunkSize : Nat) (s : State) (e : Event) :
    Decidable ((system.restrict (PurgeOk chunkSize)).enabled s e) :=
  inferInstanceAs (Decidable (Enabled s.regions e ∧ PurgeOk chunkSize s e))

namespace RingInv

variable {chunkSize W : Nat} {s s' : State}

theorem init (hW : 1 ≤ W) (C chunkSize : Nat) :
    RingInv chunkSize W (windowInit C chunkSize W) where
  shaped := Shaped.init hW C chunkSize
  agrees := Agrees.init C chunkSize W
  chunkSize_eq := rfl
  cut := by
    intro p region hregion
    cases hregion
  chunk_eq := by
    intro n region hregion
    cases hregion

/-- Nothing but the ring and the counts has changed. -/
theorem of_same (h : RingInv chunkSize W s) (hshaped : Shaped W s') (hagrees : Agrees s')
    (hsize : s'.chunkSize = s.chunkSize) (hchunk : s'.chunk = s.chunk)
    (hlookup : ∀ q r, s'.regions.lookup q = some r → s.regions.lookup q = some r) :
    RingInv chunkSize W s' := by
  refine ⟨hshaped, hagrees, hsize.trans h.chunkSize_eq, ?_, ?_⟩
  · intro p region hregion
    exact h.cut p region (hlookup p region hregion)
  · intro n region hregion c hc
    rw [hchunk]
    exact h.chunk_eq n region (hlookup _ region hregion) c hc

theorem alloc (h : RingInv chunkSize W s) {p : RegionPtr} {region : ShamblesRegion}
    (heffect : AllocEffect W s s' p region) (hfresh : s.regions.lookup p = none)
    (hcut : Cut chunkSize region) : RingInv chunkSize W s' := by
  refine ⟨heffect.shaped, h.agrees.alloc heffect hfresh,
    heffect.chunkSize.trans h.chunkSize_eq, ?_, ?_⟩
  · intro q r hr
    rw [heffect.regions, lookup_cons_eq] at hr
    by_cases hq : q = p
    · rw [if_pos hq] at hr
      obtain rfl := Option.some.inj hr
      exact hcut
    · rw [if_neg hq] at hr
      exact h.cut q r hr
  · intro n r hr c hc
    rw [heffect.regions, lookup_cons_eq] at hr
    rw [heffect.chunk]
    by_cases hp : n.region = p
    · rw [if_pos hp] at hr
      obtain rfl := Option.some.inj hr
      simp [initNodes, hp, hc]
    · rw [if_neg hp] at hr
      simpa [initNodes, hp] using h.chunk_eq n r hr c hc

theorem step (h : RingInv chunkSize W s) (hpos : 0 < chunkSize) (hmax : chunkSize < 2 ^ 64)
    {e : Event} (he : Enabled s.regions e)
    (hok : PurgeOk chunkSize s e) (hs' : Window.step s e = some s') : RingInv chunkSize W s' := by
  cases e with
  | alloc p region => exact h.alloc (allocRegion_effect h.shaped hs') he.1 hok
  | free p =>
      cases hregion : s.regions.lookup p with
      | none => exact absurd hregion he
      | some region =>
          have hfree : freeRegion s p region = some s' := by
            simpa [Window.step, hregion] using hs'
          have heffect := freeRegion_effect h.shaped hfree
          have hclears := (h.clearsExactly_iff hpos hmax hregion).2 (hok region hregion)
          refine h.of_same heffect.shaped ((h.agrees.free_iff heffect).2 hclears)
            heffect.chunkSize heffect.chunk ?_
          intro q r hr
          rw [heffect.regions, lookup_filter_ne] at hr
          by_cases hq : q = p
          · simp [hq] at hr
          · simpa [hq] using hr
  | sample addr chunk =>
      cases chunk with
      | none =>
          obtain rfl := Option.some.inj hs'
          exact h.of_same (h.shaped.quiet (Quiet.emit s _)) ⟨h.agrees.sampled, h.agrees.counted⟩
            rfl rfl (fun _ _ hr => hr)
      | some x =>
          have heffect := handleSample_effect h.shaped hs'
          refine h.of_same heffect.shaped (h.agrees.sample heffect he) heffect.chunkSize
            heffect.chunk ?_
          intro q r hr
          rwa [heffect.regions] at hr

theorem run (hW : 1 ≤ W) (hpos : 0 < chunkSize) (hmax : chunkSize < 2 ^ 64) {C : Nat}
    {es : List Event}
    (hrun : Run (system.restrict (PurgeOk chunkSize)) (windowInit C chunkSize W) es s) :
    RingInv chunkSize W s := by
  refine Run.invariant_state (init hW C chunkSize) ?_ hrun
  intro s e s' h hen hstep
  exact h.step hpos hmax hen.1 hen.2 hstep

end RingInv

/-- A release clears an entry exactly if its chunk passes the test. -/
theorem FreeEffect.clears_iff {W : Nat} {s s' : State} {p : RegionPtr} {region : ShamblesRegion}
    (h : FreeEffect W s s' p region) :
    (∀ n, some n ∈ s.samples → (some n ∈ s'.samples ↔ n.region ≠ p)) ↔
      ClearsExactly s p region := by
  refine forall₂_congr ?_
  intro n hn
  rw [h.samples, mem_map_filter]
  simp [hn, not_iff_not]

end Window
end Shambles
