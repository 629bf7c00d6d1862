import Shambles.Lru.Promotions

/-!
# Unbind — what a release of the LRU plugin leaves bound

Memory is bound chunk by chunk, on allocation and on every migration.  A release calls `unbind`
once, with the start of the region and the size of its first chunk.  In the loop that follows, a
chunk of the region itself is never bound again, because its descriptor does not lie behind the
descriptors of the region; a chunk of another region may be (`boundByFree`).  Every other byte of
the region keeps the binding it had (`binding_after_free`).

Regions may overlap: a block whose release was missed stays tracked when its memory is used again.

`freed_unbound_iff`: in any run the memory of the region is unbound exactly if none of it is bound
again by the loop and everything behind its first chunk was unbound before.  As long as regions do
not overlap, that is the case exactly if the region has one chunk.
-/

namespace Shambles
namespace Lru

open AssocList Structures Plugins

/-! ## Bytes on a tier -/

/-- Byte `a` carries a fast or a slow binding. -/
def OnTier (trace : List Effect) (a : Nat) : Prop :=
  ∃ loc, bindingAt trace a = some (policyOf loc)

theorem OnTier.ne_default {trace : List Effect} {a : Nat} (h : OnTier trace a) :
    bindingAt trace a ≠ some .default := by
  rcases h with ⟨loc, hloc⟩
  rw [hloc]
  cases loc with
  | fast => simp [policyOf]
  | slow => simp [policyOf]

/-- A binding of a chunk puts the bytes of the chunk on a tier and takes no other byte off. -/
theorem onTier_bind {trace : List Effect} {a : Nat} (c : ShamblesChunk) (loc : MemLoc)
    (dir : Direction) (h : OnTier trace a ∨ c.Covers a) :
    OnTier (trace ++ [.mbind c.start c.size (policyOf loc), .logMigration dir c.start c.size]) a := by
  by_cases hc : c.Covers a
  · exact ⟨loc, by rw [bindingAt_bind, if_pos hc]⟩
  · rcases h.resolve_right hc with ⟨old, hold⟩
    exact ⟨old, by rw [bindingAt_bind, if_neg hc, hold]⟩

section Functions

variable {s s' : State} {a : Nat}

/-- Both loops of an allocation put one node after the other on a tier. -/
theorem onTier_placeSlow {ns : List NodePtr} :
    ∀ {s : State}, (OnTier s.trace a ∨ ∃ n ∈ ns, (s.chunk n).chunk.Covers a) →
      OnTier (placeSlow s ns).trace a := by
  induction ns with
  | nil =>
      intro s h
      simpa [placeSlow] using h
  | cons n rest ih =>
      intro s h
      refine ih ?_
      rw [List.exists_mem_cons_iff, ← or_assoc] at h
      exact h.imp_left (onTier_bind (s.chunk n).chunk .slow .initSlow)

theorem onTier_place {ns : List NodePtr} :
    ∀ {s : State}, (OnTier s.trace a ∨ ∃ n ∈ ns, (s.chunk n).chunk.Covers a) →
      OnTier (placeSlow (placeFast s ns).1 (placeFast s ns).2).trace a := by
  induction ns with
  | nil =>
      intro s h
      simpa [placeFast, placeSlow] using h
  | cons n rest ih =>
      intro s h
      -- Without a free fast chunk the second loop takes over.
      by_cases hfree : s.freeFastChunks = 0
      · simpa [placeFast, hfree] using onTier_placeSlow h
      · simp only [placeFast, ne_eq, hfree, not_false_eq_true, if_true]
        refine ih ?_
        rw [List.exists_mem_cons_iff, ← or_assoc] at h
        exact h.imp_left (onTier_bind (s.chunk n).chunk .fast .initFast)

/-- The loop of a release only ever binds. -/
theorem onTier_freeChunks (region : ShamblesRegion) {ns : List NodePtr} :
    ∀ {s : State}, OnTier s.trace a → OnTier (ns.foldl (freeChunk region) s).trace a := by
  induction ns with
  | nil => exact id
  | cons n rest ih =>
      intro s h
      refine ih ?_
      rcases (freeChunk_cases region s n).2 with ⟨_, _, htrace⟩ | ⟨p, _, _, htrace⟩
      · rwa [htrace]
      · rw [htrace]
        split
        · exact onTier_bind (s.chunk p).chunk .fast .slow2fast (Or.inl h)
        · exact h

theorem onTier_sampleSlow {addr : Nat} {node victim : NodePtr} (h : OnTier s.trace a) :
    OnTier (sampleSlow s addr node victim).trace a := by
  have htrace := bindingAt_swap (s.trace ++ [.logSample addr ⟨true, false⟩])
    (s.chunk node).chunk (s.chunk victim).chunk a
  rw [bindingAt_logSample] at htrace
  by_cases hnode : (s.chunk node).chunk.Covers a
  · rw [if_pos hnode] at htrace
    exact ⟨.fast, htrace⟩
  · by_cases hvictim : (s.chunk victim).chunk.Covers a
    · rw [if_neg hnode, if_pos hvictim] at htrace
      exact ⟨.slow, htrace⟩
    · rw [if_neg hnode, if_neg hvictim] at htrace
      rcases h with ⟨loc, hloc⟩
      exact ⟨loc, htrace.trans hloc⟩

theorem onTier_handleSample {addr : Nat} {chunk : Option NodePtr}
    (hs' : handleSample s addr chunk = some s') (h : OnTier s.trace a) : OnTier s'.trace a := by
  have hlog : ∀ flags, OnTier (s.trace ++ [.logSample addr flags]) a := by
    intro flags
    rcases h with ⟨loc, hloc⟩
    exact ⟨loc, (bindingAt_logSample s.trace addr flags a).trans hloc⟩
  cases chunk with
  | none =>
      obtain rfl := Option.some.inj hs'
      exact hlog ⟨false, false⟩
  | some node =>
      simp only [handleSample] at hs'
      split at hs'
      · obtain rfl := Option.some.inj hs'
        exact hlog ⟨true, true⟩
      · split at hs'
        · cases hs'
        · obtain rfl := Option.some.inj hs'
          exact onTier_sampleSlow h

end Functions

/-! ## Runs -/

/-- The lists hold the live chunks, which are not empty and on a tier byte by byte. -/
structure Backed (C : Nat) (s : State) (L : List NodePtr) : Prop where
  refines : Refines C s L
  layout : Layout s
  pos : ∀ p region, s.regions.lookup p = some region → ∀ c ∈ region.chunks, 0 < c.size
  onTier : ∀ n, LiveNode s.regions n → ∀ a, (s.chunk n).chunk.Covers a → OnTier s.trace a

namespace Backed

variable {C : Nat} {s s' : State} {L : List NodePtr} {p : RegionPtr} {region : ShamblesRegion}

theorem init (hmax : C ≤ INT_MAX) : Backed C (lruInit C) [] := by
  have hinit := Placed.init hmax
  refine ⟨hinit.refines, hinit.layout, ?_, ?_⟩
  · intro q r hr
    cases hr
  · rintro n ⟨r, hr, _⟩
    cases hr

theorem alloc (h : Backed C s L) (hfresh : s.regions.lookup p = none) (hne : region.chunks ≠ [])
    (htiles : Tiles region.start region.chunks) (hpos : ∀ c ∈ region.chunks, 0 < c.size)
    (hsep : ∀ r ∈ s.regions, r.2.start + r.2.size ≤ region.start ∨
      region.start + region.size ≤ r.2.start) :
    Backed C (allocRegion s p region) (L ++ nodesOf p region) := by
  refine ⟨h.refines.alloc hfresh, h.layout.allocRegion hfresh hne htiles hsep, ?_, ?_⟩
  · intro q r hr
    rw [allocRegion_regions, lookup_cons_eq] at hr
    by_cases hq : q = p
    · rw [if_pos hq] at hr
      obtain rfl := Option.some.inj hr
      exact hpos
    · rw [if_neg hq] at hr
      exact h.pos q r hr
  · rintro n ⟨r, hr, hindex⟩ a ha
    rw [allocRegion_regions, lookup_cons_eq] at hr
    rw [allocRegion_chunk] at ha
    refine onTier_place ?_
    -- A node of the new region is bound by one of the loops, any other one was bound before.
    by_cases hn : n.region = p
    · rw [if_pos hn] at hr
      obtain rfl := Option.some.inj hr
      exact Or.inr ⟨n, mem_nodesOf.2 ⟨hn, hindex⟩, ha⟩
    · rw [if_neg hn] at hr
      have hold : (s.chunk n).chunk.Covers a := by simpa [initNodes, hn] using ha
      exact Or.inl (h.onTier n ⟨r, hr, hindex⟩ a hold)

/-- A release takes nothing but the first chunk of its region off its tier. -/
theorem onTier_freeRegion (h : Backed C s L) (hlive : s.regions.lookup p = some region)
    {n : NodePtr} (hn : LiveNode s.regions n) (hne : n ≠ ⟨p, 0⟩) {a : Nat}
    (ha : (s.chunk n).chunk.Covers a) : OnTier (freeRegion s p region).trace a := by
  refine onTier_freeChunks region ?_
  rcases h.onTier n hn a ha with ⟨loc, hloc⟩
  exact ⟨loc, (h.layout.bindingAt_unbind hlive hn hne ha).trans hloc⟩

theorem free (h : Backed C s L) (hlive : s.regions.lookup p = some region) :
    Backed C (freeRegion s p region) (L.filter fun n => n.region ≠ p) := by
  refine ⟨h.refines.free hlive, h.layout.freeRegion, ?_, ?_⟩
  · intro q r hr
    exact h.pos q r (lookup_freeRegion hr).2
  · rintro n ⟨r, hr, hindex⟩ a ha
    rcases lookup_freeRegion hr with ⟨hnp, hr⟩
    rw [freeRegion_chunk] at ha
    have hne : n ≠ ⟨p, 0⟩ := fun heq => hnp (by rw [heq])
    exact h.onTier_freeRegion hlive ⟨r, hr, hindex⟩ hne ha

theorem sample (h : Backed C s L) {addr : Nat} {chunk : Option NodePtr} {L' : List NodePtr}
    (hs' : handleSample s addr chunk = some s') (hrefines : Refines C s' L') : Backed C s' L' := by
  have hregions := handleSample_regions hs'
  refine ⟨hrefines, h.layout.handleSample hs', ?_, ?_⟩
  · intro q r hr
    rw [hregions] at hr
    exact h.pos q r hr
  · intro n hn a ha
    rw [hregions] at hn
    rw [handleSample_chunk hs'] at ha
    exact onTier_handleSample hs' (h.onTier n hn a ha)

theorem step (h : Backed C s L) {chunkSize : Nat} (hsize : 0 < chunkSize) {e : Event}
    (he : Enabled s.regions e) (hok : AllocOk chunkSize s e) (hs' : Lru.step s e = some s') :
    Backed C s' (recencyStep L e) := by
  cases e with
  | alloc p region =>
      rcases hok with ⟨hcut, hsep⟩
      obtain rfl : allocRegion s p region = s' := Option.some.inj hs'
      exact h.alloc he.1 he.2 (hcut.tiles hsize) (fun c hc => (hcut.bounds hsize c hc).1) hsep
  | free p =>
      rcases of_step_free hs' with ⟨region, hregion, rfl⟩
      exact h.free hregion
  | sample addr chunk => exact h.sample hs' (h.refines.step_of_some he hs')

theorem run (hmax : C ≤ INT_MAX) {chunkSize : Nat} (hsize : 0 < chunkSize) {es : List Event}
    (h : Run (system.restrict (AllocOk chunkSize)) (lruInit C) es s) : Backed C s (recency es) := by
  refine Run.invariant (P := fun es s => Backed C s (recency es)) (init hmax) ?_ h
  intro es s e s' hs hen hst
  simpa [recency_snoc] using hs.step hsize hen.1 hen.2 hst

end Backed

/-! ## The release of a region -/

/-- One iteration binds the chunk it promotes, if its descriptor lies behind. -/
theorem bindingAt_freeChunk (region : ShamblesRegion) (s : State) (n : NodePtr) (a : Nat) :
    bindingAt (freeChunk region s n).trace a =
      if ∃ x ∈ (promotion s n).toList, BoundOnFree region s x ∧ (s.chunk x).chunk.Covers a
      then some .fastmask else bindingAt s.trace a := by
  rcases (freeChunk_cases region s n).2 with ⟨hnone, _, htrace⟩ | ⟨x, hx, _, htrace⟩
  · simp [hnone, htrace]
  · rw [htrace]
    by_cases hbound : BoundOnFree region s x
    · rw [if_pos hbound]
      refine (bindingAt_bind s.trace (s.chunk x).chunk .fastmask .slow2fast a).trans ?_
      simp [hx, hbound]
    · simp [hx, hbound]

/-- The loop binds the chunks it promotes whose descriptors lie behind, and nothing else. -/
theorem bindingAt_freeChunks (region : ShamblesRegion) (a : Nat) {ns : List NodePtr} :
    ∀ {s : State}, bindingAt (ns.foldl (freeChunk region) s).trace a =
      if ∃ x ∈ promotions region s ns, BoundOnFree region s x ∧ (s.chunk x).chunk.Covers a
      then some .fastmask else bindingAt s.trace a := by
  induction ns with
  | nil =>
      intro s
      simp [promotions]
  | cons n rest ih =>
      intro s
      have hchunk := (freeChunk_cases region s n).1
      have hsame : ∀ x, BoundOnFree region (freeChunk region s n) x ↔ BoundOnFree region s x := by
        intro x
        simp [BoundOnFree, hchunk]
      have hmem : ∀ x, x ∈ promotions region s (n :: rest) ↔
          x ∈ (promotion s n).toList ∨ x ∈ promotions region (freeChunk region s n) rest := by
        simp [promotions]
      simp only [List.foldl_cons, ih, hsame, hchunk, bindingAt_freeChunk]
      by_cases hlater : ∃ x ∈ promotions region (freeChunk region s n) rest,
          BoundOnFree region s x ∧ (s.chunk x).chunk.Covers a
      · rcases hlater with ⟨x, hx, hbound⟩
        rw [if_pos ⟨x, hx, hbound⟩, if_pos ⟨x, (hmem x).2 (Or.inr hx), hbound⟩]
      · rw [if_neg hlater]
        refine if_congr ?_ rfl rfl
        constructor
        · rintro ⟨x, hx, hbound⟩
          exact ⟨x, (hmem x).2 (Or.inl hx), hbound⟩
        · rintro ⟨x, hx, hbound⟩
          rcases (hmem x).1 hx with hx | hx
          · exact ⟨x, hx, hbound⟩
          · exact absurd ⟨x, hx, hbound⟩ hlater

/-- For every byte of the region, the last `mbind` that covers it is the one with `MPOL_DEFAULT`. -/
def Unbound (s : State) (region : ShamblesRegion) : Prop :=
  ∀ a, region.start ≤ a → a < region.start + region.size → bindingAt s.trace a = some .default

/-- The chunks that the release of the region at `p` binds to fast memory: slow ones among the first
`C` of those that stay, with descriptors behind those of the region. -/
def boundByFree (C : Nat) (s : State) (p : RegionPtr) (region : ShamblesRegion) : List NodePtr :=
  (((recencyList s).filter fun n => n.region ≠ p).take C).filter fun n =>
    s.loc n = .slow ∧ BoundOnFree region s n

section Release

variable {C : Nat} {s : State} {L : List NodePtr} {p : RegionPtr} {region : ShamblesRegion}

theorem mem_boundByFree_iff (h : Refines C s L) (hd : Described s)
    (hlive : s.regions.lookup p = some region) {x : NodePtr} :
    x ∈ boundByFree C s p region ↔ x ∈ promotedBy s p region ∧ BoundOnFree region s x := by
  have hpromoted := (promotedLive_perm h hd hlive).mem_iff (a := x)
  rw [mem_promotedLive_iff h hd hlive, List.mem_filter] at hpromoted
  rw [boundByFree, List.mem_filter]
  constructor
  · rintro ⟨htake, hslow⟩
    rw [decide_eq_true_eq] at hslow
    exact ⟨(hpromoted.1 ⟨htake, hslow.1⟩).1, hslow.2⟩
  · rintro ⟨hx, hbound⟩
    have hxlive := ((freeRegion_promotions h hlive).2.1 x hx).1
    have hne := hd.region_ne_of_boundOnFree hlive hxlive hbound
    rcases hpromoted.2 ⟨hx, by simpa using hne⟩ with ⟨htake, hslow⟩
    exact ⟨htake, by simpa using ⟨hslow, hbound⟩⟩

/-- What a release makes of the binding of a byte. -/
theorem binding_after_free (h : Refines C s L) (hd : Described s)
    (hlive : s.regions.lookup p = some region) {c : ShamblesChunk} {cs : List ShamblesChunk}
    (hchunks : region.chunks = c :: cs) (hstart : c.start = region.start) (a : Nat) :
    bindingAt (freeRegion s p region).trace a =
      if ∃ x ∈ boundByFree C s p region, (s.chunk x).chunk.Covers a then some .fastmask
      else if c.Covers a then some .default else bindingAt s.trace a := by
  calc
    bindingAt (freeRegion s p region).trace a
        = if ∃ x ∈ promotedBy s p region, BoundOnFree region s x ∧ (s.chunk x).chunk.Covers a
          then some .fastmask else bindingAt (s.trace ++ unbind region) a :=
          bindingAt_freeChunks region a
    _ = if ∃ x ∈ boundByFree C s p region, (s.chunk x).chunk.Covers a then some .fastmask
        else if c.Covers a then some .default else bindingAt s.trace a := by
          rw [bindingAt_unbind s.trace hchunks hstart]
          simp only [mem_boundByFree_iff h hd hlive, and_assoc]

/-- The first chunk takes in the bytes up to the chunk size. -/
theorem first_covers_iff {chunkSize : Nat} (hcut : Cut chunkSize region) (hsize : 0 < chunkSize)
    {c : ShamblesChunk} {cs : List ShamblesChunk} (hchunks : region.chunks = c :: cs) {a : Nat}
    (hstart : region.start ≤ a) (hend : a < region.start + region.size) :
    c.Covers a ↔ a < region.start + chunkSize := by
  have htiles := hcut.tiles hsize
  have hfirst : c.start = region.start := by
    have := htiles
    rw [hchunks] at this
    exact this.1
  constructor
  · rintro ⟨_, hlt⟩
    have hle := (hcut.bounds hsize c (by simp [hchunks])).2
    omega
  · intro hlt
    -- the chunk of `a` in the tiling is the first one, or starts a chunk size behind it
    have hsum : region.size = c.size + (cs.map ShamblesChunk.size).sum := by
      simp [ShamblesRegion.size, hchunks]
    refine ⟨by omega, ?_⟩
    cases cs with
    | nil =>
        simp only [List.map_nil, List.sum_nil] at hsum
        omega
    | cons d ds =>
        have hd : d.start = region.start + 1 * chunkSize :=
          hcut.start_eq hsize (by simp [hchunks])
        have hnext : d.start = region.start + c.size := by
          have := htiles
          rw [hchunks] at this
          exact this.2.1
        omega

/-- None of the region is bound again by its release, and what lies behind the first chunk was
unbound before. -/
structure Unbinds (C chunkSize : Nat) (s : State) (p : RegionPtr) (region : ShamblesRegion) :
    Prop where
  kept : ∀ x ∈ boundByFree C s p region, ∀ a, region.start ≤ a →
    a < region.start + region.size → ¬ (s.chunk x).chunk.Covers a
  behind : ∀ a, region.start + chunkSize ≤ a → a < region.start + region.size →
    bindingAt s.trace a = some .default

theorem unbound_iff_unbinds (h : Refines C s L) (hd : Described s)
    (hlive : s.regions.lookup p = some region) {chunkSize : Nat} (hcut : Cut chunkSize region)
    (hsize : 0 < chunkSize) (hne : region.chunks ≠ []) :
    Unbound (freeRegion s p region) region ↔ Unbinds C chunkSize s p region := by
  rcases List.exists_cons_of_ne_nil hne with ⟨c, cs, hchunks⟩
  have hfirst : c.start = region.start := by
    have htiles := hcut.tiles hsize
    rw [hchunks] at htiles
    exact htiles.1
  have hbinding := binding_after_free h hd hlive hchunks hfirst
  constructor
  · intro hunbound
    refine ⟨?_, ?_⟩
    · intro x hx a hstart hend hcover
      have hdefault := hunbound a hstart hend
      rw [hbinding a, if_pos ⟨x, hx, hcover⟩] at hdefault
      cases hdefault
    · intro a hbehind hend
      have hdefault := hunbound a (by omega) hend
      have hout : ¬ c.Covers a := by
        rw [first_covers_iff hcut hsize hchunks (by omega) hend]
        omega
      rw [hbinding a, if_neg hout] at hdefault
      split at hdefault
      · cases hdefault
      · exact hdefault
  · rintro ⟨hkept, hbehind⟩ a hstart hend
    rw [hbinding a, if_neg (fun ⟨x, hx, hcover⟩ => hkept x hx a hstart hend hcover)]
    split_ifs with hcover
    · rfl
    · rw [first_covers_iff hcut hsize hchunks hstart hend] at hcover
      exact hbehind a (by omega) hend

end Release

/-! ## Regions that do not overlap -/

namespace Backed

variable {C : Nat} {s : State} {L : List NodePtr} {p : RegionPtr} {region : ShamblesRegion}

/-- The chunks that share a byte with the region are its own. -/
theorem region_of_covers (h : Backed C s L) (hlive : s.regions.lookup p = some region)
    {x : NodePtr} (hx : LiveNode s.regions x) {a : Nat} (ha : (s.chunk x).chunk.Covers a)
    (hstart : region.start ≤ a) (hend : a < region.start + region.size) : x.region = p := by
  rcases hx with ⟨r, hr, hindex⟩
  by_contra hne
  rw [h.layout.chunk_eq x r hr _ (List.getElem?_eq_getElem hindex)] at ha
  have hin : r.start ≤ a ∧ a < r.start + r.size :=
    (h.layout.tiles _ r hr).bounds _ (List.getElem_mem hindex) a ha
  rcases h.layout.apart x.region p r region hne hr hlive with hbefore | hbehind
  · omega
  · omega

theorem unbinds_iff (h : Backed C s L) (hlive : s.regions.lookup p = some region)
    {chunkSize : Nat} (hcut : Cut chunkSize region) (hsize : 0 < chunkSize) :
    Unbinds C chunkSize s p region ↔ region.nChunks = 1 := by
  rcases List.exists_cons_of_ne_nil (h.layout.nonempty p region hlive) with ⟨c, cs, hchunks⟩
  have hsum : region.size = c.size + (cs.map ShamblesChunk.size).sum := by
    simp [ShamblesRegion.size, hchunks]
  have hkept : ∀ x ∈ boundByFree C s p region, ∀ a, region.start ≤ a →
      a < region.start + region.size → ¬ (s.chunk x).chunk.Covers a := by
    intro x hx a hstart hend hcover
    rcases (mem_boundByFree_iff h.refines h.layout.toDescribed hlive).1 hx with ⟨hx, hbound⟩
    have hxlive := ((freeRegion_promotions h.refines hlive).2.1 x hx).1
    exact h.layout.region_ne_of_boundOnFree hlive hxlive hbound
      (h.region_of_covers hlive hxlive hcover hstart hend)
  cases cs with
  | nil =>
      -- nothing lies behind the first chunk
      refine iff_of_true ⟨hkept, ?_⟩ (by simp [ShamblesRegion.nChunks, hchunks])
      intro a hbehind hend
      have hle := (hcut.bounds hsize c (by simp [hchunks])).2
      simp only [List.map_nil, List.sum_nil] at hsum
      omega
  | cons d ds =>
      refine iff_of_false ?_ (by simp [ShamblesRegion.nChunks, hchunks])
      rintro ⟨_, hbehind⟩
      -- the first byte of the second chunk is on a tier
      have hd : d.start = region.start + 1 * chunkSize := hcut.start_eq hsize (by simp [hchunks])
      have hpos : 0 < d.size := (hcut.bounds hsize d (by simp [hchunks])).1
      have hnode : LiveNode s.regions ⟨p, 1⟩ :=
        ⟨region, hlive, by simp [ShamblesRegion.nChunks, hchunks]⟩
      have hchunk : (s.chunk ⟨p, 1⟩).chunk = d := by
        rw [h.layout.chunk_eq ⟨p, 1⟩ region hlive d (by simp [hchunks])]
      have hcover : d.Covers d.start := ⟨le_refl _, by omega⟩
      have hin := (hcut.tiles hsize).bounds d (by simp [hchunks]) d.start hcover
      have htier := h.onTier ⟨p, 1⟩ hnode d.start (by rw [hchunk]; exact hcover)
      exact htier.ne_default (hbehind d.start (by omega) hin.2)

end Backed

/-! ## Runs -/

/-- Regions are as `addRegion` cuts them; they may overlap. -/
def CutOk (chunkSize : Nat) (_ : State) : Event → Prop
  | .alloc _ region => Cut chunkSize region
  | .free _ => True
  | .sample _ _ => True

instance (chunkSize : Nat) (s : State) : (e : Event) → Decidable (CutOk chunkSize s e)
  | .alloc _ region => inferInstanceAs (Decidable (Cut chunkSize region))
  | .free _ => isTrue trivial
  | .sample _ _ => isTrue trivial

instance (chunkSize : Nat) (s : State) (e : Event) :
    Decidable ((system.restrict (CutOk chunkSize)).enabled s e) :=
  inferInstanceAs (Decidable (Enabled s.regions e ∧ CutOk chunkSize s e))

theorem AllocOk.cutOk {chunkSize : Nat} {s : State} {e : Event} (h : AllocOk chunkSize s e) :
    CutOk chunkSize s e := by
  cases e with
  | alloc p region => exact h.1
  | free p => trivial
  | sample addr chunk => trivial

/-- The live regions are cut, and have chunks. -/
def AllCut (chunkSize : Nat) (s : State) : Prop :=
  ∀ p region, s.regions.lookup p = some region → Cut chunkSize region ∧ region.chunks ≠ []

theorem AllCut.step {chunkSize : Nat} {s s' : State} (h : AllCut chunkSize s) {e : Event}
    (he : Enabled s.regions e) (hok : CutOk chunkSize s e) (hs' : Lru.step s e = some s') :
    AllCut chunkSize s' := by
  intro q r hr
  cases e with
  | alloc p region =>
      obtain rfl : allocRegion s p region = s' := Option.some.inj hs'
      rw [allocRegion_regions, lookup_cons_eq] at hr
      by_cases hq : q = p
      · rw [if_pos hq] at hr
        obtain rfl := Option.some.inj hr
        exact ⟨hok, he.2⟩
      · rw [if_neg hq] at hr
        exact h q r hr
  | free p =>
      rcases of_step_free hs' with ⟨region, _, rfl⟩
      exact h q r (lookup_freeRegion hr).2
  | sample addr chunk =>
      rw [handleSample_regions hs'] at hr
      exact h q r hr

section Runs

variable {C chunkSize : Nat} {es : List Event} {s : State}

theorem AllCut.run (h : Run (system.restrict (CutOk chunkSize)) (lruInit C) es s) :
    AllCut chunkSize s := by
  refine Run.invariant_state (P := AllCut chunkSize) ?_ ?_ h
  · intro p region hregion
    cases hregion
  · intro s e s' hs hen hst
    exact hs.step hen.1 hen.2 hst

/-- In every run, the release of a tracked region unbinds all of its memory exactly if none of it is
bound again and all of it behind the first chunk was unbound before; and as long as no allocation
overlaps a tracked region, exactly if the region has one chunk. -/
theorem freed_unbound_iff (hmax : C ≤ INT_MAX) (hsize : 0 < chunkSize)
    (h : Run (system.restrict (CutOk chunkSize)) (lruInit C) es s) {p : RegionPtr}
    {region : ShamblesRegion} (hlive : s.regions.lookup p = some region) :
    ∃ s', step s (.free p) = some s' ∧
      (Unbound s' region ↔ Unbinds C chunkSize s p region) ∧
      (Run (system.restrict (AllocOk chunkSize)) (lruInit C) es s →
        (Unbound s' region ↔ region.nChunks = 1)) := by
  refine ⟨freeRegion s p region, by simp [step, hlive], ?_⟩
  have hrefines := Refines.run hmax h.of_restrict
  have hdescribed := Described.run h.of_restrict
  rcases AllCut.run h p region hlive with ⟨hcut, hne⟩
  have hunbinds := unbound_iff_unbinds hrefines hdescribed hlive hcut hsize hne
  refine ⟨hunbinds, ?_⟩
  intro hapart
  exact hunbinds.trans ((Backed.run hmax hsize hapart).unbinds_iff hlive hcut hsize)

end Runs

/-- A fast region of one chunk is released, and the slow chunk of another one takes its place. -/
theorem freed_unbound_one_chunk :
    ∃ s, Run (system.restrict (AllocOk 0x10000)) (lruInit 1)
        [.alloc 7 ⟨0x18000, [⟨0x18000, 0x10000⟩], 0x800⟩,
          .alloc 8 ⟨0x38000, [⟨0x38000, 0x10000⟩], 0x900⟩] s ∧
      ∃ s', step s (.free 7) = some s' ∧
        Unbound s' ⟨0x18000, [⟨0x18000, 0x10000⟩], 0x800⟩ := by
  rcases Run.of_exec_any (system.restrict (AllocOk 0x10000)) (lruInit 1)
    [.alloc 7 ⟨0x18000, [⟨0x18000, 0x10000⟩], 0x800⟩,
      .alloc 8 ⟨0x38000, [⟨0x38000, 0x10000⟩], 0x900⟩]
    (fun s => s.regions.lookup 7 = some ⟨0x18000, [⟨0x18000, 0x10000⟩], 0x800⟩) (by decide) with
    ⟨s, hrun, hlive⟩
  have hcut := hrun.restrict_mono fun _ _ => AllocOk.cutOk
  rcases freed_unbound_iff (by decide) (by decide) hcut hlive with ⟨s', hs', _, hiff⟩
  exact ⟨s, hrun, s', hs', (hiff hrun).2 (by decide)⟩

/-- A region of two chunks, the second of them slow, is released; the second chunk stays bound to
slow memory. -/
theorem second_chunk_stays_bound :
    ∃ s, Run (system.restrict (AllocOk 0x10000)) (lruInit 1)
        [.alloc 7 ⟨0x18000, chunkTable 0x10000 0x18000 0x20000, 0x800⟩, .free 7] s ∧
      bindingAt s.trace 0x28000 = some .slowmask ∧
      ¬ Unbound s ⟨0x18000, chunkTable 0x10000 0x18000 0x20000, 0x800⟩ := by
  rcases Run.of_exec_any (system.restrict (AllocOk 0x10000)) (lruInit 1)
    [.alloc 7 ⟨0x18000, chunkTable 0x10000 0x18000 0x20000, 0x800⟩, .free 7]
    (fun s => bindingAt s.trace 0x28000 = some .slowmask) (by decide) with ⟨s, hrun, hslow⟩
  refine ⟨s, hrun, hslow, ?_⟩
  intro hunbound
  have hdefault := hunbound 0x28000 (by decide) (by decide)
  rw [hslow] at hdefault
  cases hdefault

end Lru
end Shambles
