import Shambles.Structures.Completeness

/-!
# ChunkInfo — the chunk of an address

Two functions of `structures.c` go from an address to a chunk of its region.  `getChunkInfo`
divides by the chunk size and belongs to the even cut of `addRegion`; `getChunkInfoNU` goes through
the table and belongs to the uneven one of `addRegionChunks`.  Both ask `getRegion` first.

* `EvenCut`: what the table of `addRegion` looks like.
* `HoldsAt`: a chunk of the table contains the address, and no other does.
* `chunk_lookup_iff`: in the table of a region both find that chunk, empty chunks or not; the lookup
  as a whole does where the region map has the address, and returns NULL everywhere else.
-/

namespace Shambles
namespace Structures

open AssocList

/-- The number of the chunk: `((uint64_t)(addr - region->start))/CHUNK_SIZE`. -/
def chunkIndex (chunkSize : Nat) (region : ShamblesRegion) (addr : Nat) : Nat :=
  sub64 addr region.start / chunkSize

/-- `getChunkInfo`: the region, and the number of the chunk in it. -/
def getChunkInfo {g : Geometry} (chunkSize : Nat) (tree : TreeState g) (addr : Nat) :
    Option (RegionPtr × Nat) :=
  match getRegion g tree.root addr with
  | none => none
  | some p => (tree.regions.lookup p).map fun region => (p, chunkIndex chunkSize region addr)

/-- The loop of `getChunkInfoNU`: the number of the chunk of a region that it settles on. -/
def chunkIndexNU (addr : Nat) : List ShamblesChunk → Nat
  | _ :: next :: chunks =>
      -- `break` before the first chunk that starts behind `addr`
      if addr < next.start then 0 else chunkIndexNU addr (next :: chunks) + 1
  | _ => 0

/-- `getChunkInfoNU`: the region, and the number of the chunk in it. -/
def getChunkInfoNU {g : Geometry} (tree : TreeState g) (addr : Nat) : Option (RegionPtr × Nat) :=
  match getRegion g tree.root addr with
  | none => none
  | some p => (tree.regions.lookup p).map fun region => (p, chunkIndexNU addr region.chunks)

/-- The chunks lie one behind the other from `addr` to `addr + size`, none is empty, and all but
the last are of the chunk size. -/
structure EvenCut (chunkSize addr size : Nat) (region : ShamblesRegion) : Prop where
  tiles : Tiles addr region.chunks
  size_eq : region.size = size
  nonempty : ∀ c ∈ region.chunks, 0 < c.size
  full : ∀ c ∈ region.chunks.dropLast, c.size = chunkSize
  last : ∀ c ∈ region.chunks, c.size ≤ chunkSize

/-- Chunk number `i` of the region contains the address, and no other chunk does. -/
def HoldsAt (region : ShamblesRegion) (addr i : Nat) : Prop :=
  (∃ c, region.chunks[i]? = some c ∧ c.Covers addr) ∧
    ∀ j d, region.chunks[j]? = some d → d.Covers addr → j = i

theorem HoldsAt.lt {region : ShamblesRegion} {addr i : Nat} (h : HoldsAt region addr i) :
    i < region.nChunks := by
  rcases h.1 with ⟨c, hc, _⟩
  exact (List.getElem?_eq_some_iff.1 hc).1

theorem HoldsAt.unique {region : ShamblesRegion} {addr i j : Nat} (hi : HoldsAt region addr i)
    (hj : HoldsAt region addr j) : i = j := by
  rcases hi.1 with ⟨c, hc, hcovers⟩
  exact hj.2 i c hc hcovers

/-- In a tiling one chunk that contains the address is the only one. -/
theorem Tiles.holdsAt {region : ShamblesRegion} {a addr i : Nat} {c : ShamblesChunk}
    (htiles : Tiles a region.chunks) (hc : region.chunks[i]? = some c) (hcovers : c.Covers addr) :
    HoldsAt region addr i := by
  refine ⟨⟨c, hc, hcovers⟩, ?_⟩
  intro j d hd hcovers'
  by_contra hne
  rcases List.getElem?_eq_some_iff.1 hc with ⟨hi, rfl⟩
  rcases List.getElem?_eq_some_iff.1 hd with ⟨hj, rfl⟩
  exact htiles.disjoint j i hj hi hne addr ⟨hcovers', hcovers⟩

/-- The loop of `getChunkInfoNU` settles on the chunk that covers the address; empty chunks, at
either end, are passed over. -/
theorem chunkIndexNU_covers {addr : Nat} {cs : List ShamblesChunk} :
    ∀ {a : Nat}, Tiles a cs → a ≤ addr → addr < a + (cs.map ShamblesChunk.size).sum →
      ∃ c, cs[chunkIndexNU addr cs]? = some c ∧ c.Covers addr := by
  induction cs with
  | nil =>
      intro a _ hle hlt
      simp at hlt
      omega
  | cons c cs ih =>
      intro a htiles hle hlt
      rcases htiles with ⟨hstart, hrest⟩
      cases cs with
      | nil =>
          have hend : addr < a + c.size := by simpa using hlt
          exact ⟨c, rfl, by omega, by omega⟩
      | cons next cs =>
          have hnext : next.start = a + c.size := hrest.1
          by_cases hbreak : addr < next.start
          · refine ⟨c, by simp [chunkIndexNU, hbreak], by omega, by omega⟩
          · have hsum : addr < a + c.size + ((next :: cs).map ShamblesChunk.size).sum := by
              simpa [Nat.add_assoc] using hlt
            rcases ih hrest (by omega) hsum with ⟨d, hd, hcovers⟩
            exact ⟨d, by simpa [chunkIndexNU, hbreak] using hd, hcovers⟩

/-- The scan finds the chunk of every address of a tiling. -/
theorem Tiles.holdsAt_chunkIndexNU {region : ShamblesRegion} {start addr : Nat}
    (htiles : Tiles start region.chunks) (hle : start ≤ addr) (hlt : addr < start + region.size) :
    HoldsAt region addr (chunkIndexNU addr region.chunks) := by
  rcases chunkIndexNU_covers htiles hle hlt with ⟨c, hc, hcovers⟩
  exact htiles.holdsAt hc hcovers

section Even

variable {chunkSize addr size : Nat}

theorem chunkTable_dropLast (hpos : 0 < chunkSize) (hend : addr + size ≤ 2 ^ 64) :
    ∀ c ∈ (chunkTable chunkSize addr size).dropLast, c.size = chunkSize := by
  intro c hc
  have hfull : c ∈ (List.range (size / chunkSize)).map
      (fun i => (⟨addr + i * chunkSize, chunkSize⟩ : ShamblesChunk)) := by
    rw [chunkTable_eq hpos hend] at hc
    by_cases hmod : size % chunkSize = 0
    · exact List.mem_of_mem_dropLast (by simpa [hmod] using hc)
    · -- the remainder is what `dropLast` takes away
      simpa [hmod] using hc
  rcases List.mem_map.1 hfull with ⟨i, -, rfl⟩
  rfl

/-- The chunk with the number of the quotient contains the address. -/
theorem chunkTable_getElem? (hpos : 0 < chunkSize) (hend : addr + size ≤ 2 ^ 64) {offset : Nat}
    (hoffset : offset < size) :
    ∃ c, (chunkTable chunkSize addr size)[offset / chunkSize]? = some c ∧
      c.Covers (addr + offset) := by
  have hdiv : offset / chunkSize * chunkSize + offset % chunkSize = offset :=
    Nat.div_add_mod' _ _
  have hmod : offset % chunkSize < chunkSize := Nat.mod_lt _ hpos
  rw [chunkTable_eq hpos hend]
  rcases Nat.lt_or_ge (offset / chunkSize) (size / chunkSize) with hfull | hlast
  · refine ⟨⟨addr + offset / chunkSize * chunkSize, chunkSize⟩, ?_, ?_⟩
    · rw [List.getElem?_append_left (by simpa using hfull)]
      simp [hfull]
    · exact ⟨by simp only; omega, by simp only; omega⟩
  · -- the offset lies behind the full chunks, in the remainder
    have hle : offset / chunkSize ≤ size / chunkSize := Nat.div_le_div_right hoffset.le
    have hindex : offset / chunkSize = size / chunkSize := le_antisymm hle hlast
    have hsize : size / chunkSize * chunkSize + size % chunkSize = size := Nat.div_add_mod' _ _
    rw [hindex] at hdiv
    have hrest : size % chunkSize ≠ 0 := by omega
    refine ⟨⟨addr + size / chunkSize * chunkSize, size % chunkSize⟩, ?_, ?_⟩
    · rw [hindex, List.getElem?_append_right (by simp)]
      simp [hrest]
    · exact ⟨by simp only; omega, by simp only; omega⟩

end Even

namespace Cut

variable {chunkSize a : Nat} {region : ShamblesRegion}

theorem evenCut (h : Cut chunkSize region) (hpos : 0 < chunkSize) :
    EvenCut chunkSize region.start region.size region where
  tiles := h.tiles hpos
  size_eq := rfl
  nonempty := fun c hc => (h.bounds hpos c hc).1
  full := by
    rw [h.1]
    exact chunkTable_dropLast hpos h.2
  last := fun c hc => (h.bounds hpos c hc).2

theorem holdsAt_chunkIndex (h : Cut chunkSize region) (hpos : 0 < chunkSize)
    (hle : region.start ≤ a) (hlt : a < region.start + region.size) :
    HoldsAt region a (chunkIndex chunkSize region a) := by
  have hend := h.2
  have hoffset : sub64 a region.start = a - region.start := by
    unfold sub64
    omega
  rcases chunkTable_getElem? hpos hend (show a - region.start < region.size by omega) with
    ⟨c, hc, hcovers⟩
  refine (h.tiles hpos).holdsAt (c := c) ?_ ?_
  · rw [chunkIndex, hoffset, h.1]
    exact hc
  · rwa [Nat.add_sub_cancel' hle] at hcovers

/-- Division and scan settle on the same chunk. -/
theorem chunkIndexNU_eq (h : Cut chunkSize region) (hpos : 0 < chunkSize)
    (hle : region.start ≤ a) (hlt : a < region.start + region.size) :
    chunkIndexNU a region.chunks = chunkIndex chunkSize region a :=
  ((h.tiles hpos).holdsAt_chunkIndexNU hle hlt).unique (h.holdsAt_chunkIndex hpos hle hlt)

end Cut

theorem cut_addRegion (g : Geometry) (chunkSize : Nat) (root : Root g) (output chunksPtr : Nat)
    {addr size : Nat} (hend : addr + size ≤ 2 ^ 64) :
    Cut chunkSize (addRegion g chunkSize root output chunksPtr addr size).1 := by
  have hsize : (addRegion g chunkSize root output chunksPtr addr size).1.size = size :=
    chunkTable_size chunkSize addr size
  refine ⟨?_, ?_⟩
  · rw [hsize]
    rfl
  · rw [hsize]
    exact hend

/-- In the table of `addRegionChunks` the scan finds the chunk. -/
theorem holdsAt_addRegionChunks (g : Geometry) (root : Root g) (output chunksPtr : Nat)
    {addr : Nat} {sizes : List Nat} (hend : addr + sizes.sum < 2 ^ 64) {a : Nat} (hle : addr ≤ a)
    (hlt : a < addr + sizes.sum) :
    HoldsAt (addRegionChunks g root output chunksPtr addr sizes.sum sizes).1 a
      (chunkIndexNU a (addRegionChunks g root output chunksPtr addr sizes.sum sizes).1.chunks) := by
  refine (chunkTableOf_tiles hend).holdsAt_chunkIndexNU hle ?_
  show a < addr + ((chunkTableOf addr sizes).map ShamblesChunk.size).sum
  rwa [chunkTableOf_size]

/-! ## Runs of the region map -/

/-- The table is one of `addRegion` or one of `addRegionChunks`. -/
def Made (chunkSize : Nat) (region : ShamblesRegion) : Prop :=
  Cut chunkSize region ∧ 0 < chunkSize ∨
    ∃ sizes, region.chunks = chunkTableOf region.start sizes

theorem Made.tiles {chunkSize : Nat} {region : ShamblesRegion} (h : Made chunkSize region)
    (hend : region.start + region.size < 2 ^ 64) : Tiles region.start region.chunks := by
  rcases h with ⟨hcut, hpos⟩ | ⟨sizes, hchunks⟩
  · exact hcut.tiles hpos
  · have hsize : region.size = sizes.sum := by
      rw [ShamblesRegion.size, hchunks, chunkTableOf_size]
    rw [hchunks]
    exact chunkTableOf_tiles (hsize ▸ hend)

theorem made_step {g : Geometry} {sizeThresshold chunkSize : Nat} {s s' : TreeState g}
    (h : ∀ r ∈ s.regions, Made chunkSize r.2) {e : TreeEvent}
    (he : TreeState.Enabled sizeThresshold chunkSize s e)
    (hs' : TreeState.step chunkSize s e = some s') : ∀ r ∈ s'.regions, Made chunkSize r.2 := by
  intro r hr
  cases e with
  | addRegion p chunksPtr addr size =>
      obtain rfl := Option.some.inj hs'
      rcases List.mem_cons.1 hr with rfl | hr
      · rcases he with ⟨_, _, hend, hpos, _⟩
        exact Or.inl ⟨cut_addRegion g _ s.root p chunksPtr hend, hpos⟩
      · exact h r hr
  | addRegionChunks p chunksPtr addr size sizes =>
      obtain rfl := Option.some.inj hs'
      rcases List.mem_cons.1 hr with rfl | hr
      · exact Or.inr ⟨sizes, rfl⟩
      · exact h r hr
  | deleteRegion p =>
      simp only [TreeState.step] at hs'
      split at hs'
      · rcases Option.map_eq_some_iff.1 hs' with ⟨root, _, rfl⟩
        exact h r (List.mem_of_mem_filter hr)
      · cases hs'

theorem made_run {g : Geometry} {sizeThresshold chunkSize W : Nat} {es : List TreeEvent}
    {s : TreeState g}
    (h : Run (windowSystem g sizeThresshold chunkSize W) (TreeState.init g) es s) :
    ∀ r ∈ s.regions, Made chunkSize r.2 := by
  refine Run.invariant_state (P := fun s => ∀ r ∈ s.regions, Made chunkSize r.2) ?_ ?_ h
  · intro r hr
    cases hr
  · intro s e s' hs hen hst
    exact made_step hs hen.1 hst

/-- What the two lookups return for an address of the region at `p`. -/
structure LooksUp {g : Geometry} (chunkSize : Nat) (s : TreeState g) (p : RegionPtr)
    (region : ShamblesRegion) (a : Nat) : Prop where
  /-- The scan of the table settles on the one chunk that contains the address. -/
  scan : HoldsAt region a (chunkIndexNU a region.chunks)
  found : Found g s.regions region a → getChunkInfoNU s a = some (p, chunkIndexNU a region.chunks)
  missed : ¬ Found g s.regions region a → getChunkInfoNU s a = none
  /-- In a region of `addRegion` both lookups agree. -/
  even : 1 ≤ chunkSize → Cut chunkSize region →
    getChunkInfo chunkSize s a = getChunkInfoNU s a

theorem Mapped.looksUp {g : Geometry} {chunkSize W : Nat} {s : TreeState g} (hg : g.Regular)
    (hfull : 39 ≤ g.nonLeafShift0) (h : Mapped g W s) (hmade : ∀ r ∈ s.regions, Made chunkSize r.2)
    {p : RegionPtr} {region : ShamblesRegion} (hlive : s.regions.lookup p = some region)
    (hend : region.start + region.size < 2 ^ 64) {a : Nat} (hle : region.start ≤ a)
    (hlt : a < region.start + region.size) : LooksUp chunkSize s p region a := by
  have hmem := mem_of_lookup hlive
  have hget := h.getRegion_eq_ite hg hfull hmem hle hlt
  have hscan := ((hmade _ hmem).tiles hend).holdsAt_chunkIndexNU hle hlt
  refine ⟨hscan, ?_, ?_, ?_⟩
  · intro hfound
    simp [getChunkInfoNU, hget, hfound, hlive]
  · intro hmissed
    simp [getChunkInfoNU, hget, hmissed]
  · intro hpos hcut
    simp only [getChunkInfo, getChunkInfoNU, hget]
    split_ifs with hfound
    · simp [hlive, hcut.chunkIndexNU_eq hpos hle hlt]
    · rfl

end Structures
end Shambles
