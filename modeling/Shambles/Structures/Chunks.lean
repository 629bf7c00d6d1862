import Mathlib.Tactic

/-!
# Chunks — regions and their chunk tables

The data model of `structures.h`: a tracked allocation is a `ShamblesRegion`, cut into chunks.
Addresses and sizes are natural numbers below `2^64`, with 0 for NULL; pointer arithmetic wraps
(`wrap64`).

Two ways to cut a region are in use: `addRegion` cuts it into pieces of `CHUNK_SIZE` with one
smaller remainder (`chunkTable`), `addRegionChunks` follows a table of sizes given by its caller
(`chunkTableOf`).  `nChunks` is an `int` in the source and is the length of the table here, so the
model speaks about tables of at most `INT_MAX` chunks.
-/

namespace Shambles
namespace Structures

/-- The address of a `struct ShamblesRegion`, as returned by `plugin_malloc`. -/
abbrev RegionPtr := Nat

def wrap64 (n : Nat) : Nat :=
  n % 2 ^ 64

def INT_MAX : Nat :=
  2 ^ 31 - 1

structure ShamblesChunk where
  start : Nat
  size : Nat
  deriving DecidableEq, Repr

/-- `chunksPtr` is the address of the chunk array, the value of the pointer `region->chunks`. -/
structure ShamblesRegion where
  start : Nat
  chunks : List ShamblesChunk
  chunksPtr : Nat
  deriving DecidableEq, Repr

namespace ShamblesRegion

def nChunks (r : ShamblesRegion) : Nat :=
  r.chunks.length

/-- The source keeps no size; it is what the chunks add up to. -/
def size (r : ShamblesRegion) : Nat :=
  (r.chunks.map ShamblesChunk.size).sum

end ShamblesRegion

/-- `sizeof(struct ShamblesChunk)`: three eight-byte fields. -/
def sizeofChunk : Nat :=
  24

/-! ## The chunk table of `addRegion` -/

/-- `nChunks` full chunks and, when `CHUNK_SIZE` does not divide `size`, a remainder. -/
def chunkTable (chunkSize : Nat) (addr : Nat) (size : Nat) : List ShamblesChunk :=
  let nChunks := size / chunkSize
  let mod := size % chunkSize
  (List.range nChunks).map (fun i => ⟨wrap64 (addr + i * chunkSize), chunkSize⟩) ++
    if mod ≠ 0 then [⟨wrap64 (addr + nChunks * chunkSize), mod⟩] else []

/-! ## The chunk table of `addRegionChunks` -/

/-- Every chunk starts where the previous one ends. -/
def chunkTableOf (addr : Nat) : List Nat → List ShamblesChunk
  | [] => []
  | size :: sizes => ⟨addr, size⟩ :: chunkTableOf (wrap64 (addr + size)) sizes

/-! ## Tilings -/

/-- The chunks stand one behind the other from address `a` on. -/
def Tiles : Nat → List ShamblesChunk → Prop
  | _, [] => True
  | a, c :: cs => c.start = a ∧ Tiles (a + c.size) cs

/-- Byte `a` lies in chunk `c`. -/
def ShamblesChunk.Covers (c : ShamblesChunk) (a : Nat) : Prop :=
  c.start ≤ a ∧ a < c.start + c.size

instance (c : ShamblesChunk) (a : Nat) : Decidable (c.Covers a) :=
  inferInstanceAs (Decidable (_ ∧ _))

theorem wrap64_of_lt {n : Nat} (h : n < 2 ^ 64) : wrap64 n = n :=
  Nat.mod_eq_of_lt h

theorem tiles_append {cs ds : List ShamblesChunk} :
    ∀ {a : Nat}, Tiles a (cs ++ ds) ↔
      Tiles a cs ∧ Tiles (a + (cs.map ShamblesChunk.size).sum) ds := by
  induction cs with
  | nil =>
      intro a
      simp [Tiles]
  | cons c cs ih =>
      intro a
      simp [Tiles, ih, and_assoc, Nat.add_assoc]

/-- A tiling only covers bytes between its two ends. -/
theorem Tiles.bounds {cs : List ShamblesChunk} :
    ∀ {a : Nat}, Tiles a cs → ∀ c ∈ cs, ∀ b, c.Covers b →
      a ≤ b ∧ b < a + (cs.map ShamblesChunk.size).sum := by
  induction cs with
  | nil =>
      intro a _ c hc
      cases hc
  | cons d cs ih =>
      intro a h c hc b hb
      rcases h with ⟨hstart, hrest⟩
      simp only [List.map_cons, List.sum_cons]
      rcases List.mem_cons.1 hc with rfl | hmem
      · have hb' := hb
        unfold ShamblesChunk.Covers at hb'
        omega
      · have hin := ih hrest c hmem b hb
        omega

/-- Different chunks of a tiling share no byte. -/
theorem Tiles.disjoint {cs : List ShamblesChunk} :
    ∀ {a : Nat}, Tiles a cs → ∀ i j (hi : i < cs.length) (hj : j < cs.length), i ≠ j →
      ∀ b, ¬ (cs[i].Covers b ∧ cs[j].Covers b) := by
  induction cs with
  | nil =>
      intro a _ i j hi
      simp at hi
  | cons d cs ih =>
      intro a h i j hi hj hij b hboth
      rcases h with ⟨hstart, hrest⟩
      -- The head ends where the bytes of the tail begin.
      have hhead : d.Covers b → ∀ k (hk : k < cs.length), ¬ cs[k].Covers b := by
        intro hd k hk hcov
        have hin := (hrest.bounds cs[k] (List.getElem_mem hk) b hcov).1
        unfold ShamblesChunk.Covers at hd
        omega
      cases i with
      | zero =>
          cases j with
          | zero => exact hij rfl
          | succ j => exact hhead hboth.1 j (by simpa using hj) hboth.2
      | succ i =>
          cases j with
          | zero => exact hhead hboth.2 i (by simpa using hi) hboth.1
          | succ j =>
              exact ih hrest i j (by simpa using hi) (by simpa using hj)
                (fun hij' => hij (by rw [hij'])) b hboth

/-- The last chunk of a tiling ends where the tiling ends. -/
theorem Tiles.getLast_end {cs : List ShamblesChunk} :
    ∀ {a : Nat}, Tiles a cs → ∀ d, cs.getLast? = some d →
      d.start + d.size = a + (cs.map ShamblesChunk.size).sum := by
  induction cs with
  | nil =>
      intro a _ d hd
      simp at hd
  | cons c cs ih =>
      intro a h d hd
      rcases h with ⟨hstart, hrest⟩
      cases cs with
      | nil =>
          obtain rfl : c = d := by simpa using hd
          simp [hstart]
      | cons e cs =>
          have hlast := ih hrest d (by simpa using hd)
          simpa [Nat.add_assoc] using hlast

/-- `n` chunks of one size. -/
theorem tiles_range (chunkSize n : Nat) (addr : Nat) :
    Tiles addr ((List.range n).map fun i => ⟨addr + i * chunkSize, chunkSize⟩) := by
  induction n with
  | zero => trivial
  | succ n ih =>
      rw [List.range_succ, List.map_append, tiles_append]
      refine ⟨ih, ?_, trivial⟩
      simp [Function.comp_def]

section ChunkTable

variable {chunkSize addr size : Nat}

theorem chunkTable_size (chunkSize addr size : Nat) :
    ((chunkTable chunkSize addr size).map ShamblesChunk.size).sum = size := by
  have hdiv : size / chunkSize * chunkSize + size % chunkSize = size := Nat.div_add_mod' _ _
  by_cases hmod : size % chunkSize = 0
  · simp [chunkTable, Function.comp_def, hmod]
    omega
  · simp [chunkTable, Function.comp_def, hmod]
    omega

/-- Inside the address space no chunk start wraps. -/
theorem chunkTable_eq (hpos : 0 < chunkSize) (hend : addr + size ≤ 2 ^ 64) :
    chunkTable chunkSize addr size =
      ((List.range (size / chunkSize)).map fun i => ⟨addr + i * chunkSize, chunkSize⟩) ++
        if size % chunkSize ≠ 0 then [⟨addr + size / chunkSize * chunkSize, size % chunkSize⟩]
        else [] := by
  have hdiv : size / chunkSize * chunkSize + size % chunkSize = size := Nat.div_add_mod' _ _
  simp only [chunkTable]
  congr 1
  · apply List.map_congr_left
    intro i hi
    have hi' : i + 1 ≤ size / chunkSize := List.mem_range.1 hi
    have hmul : (i + 1) * chunkSize ≤ size / chunkSize * chunkSize :=
      Nat.mul_le_mul_right _ hi'
    rw [wrap64_of_lt]
    rw [Nat.add_mul] at hmul
    omega
  · by_cases hmod : size % chunkSize = 0
    · simp [hmod]
    · simp only [hmod, ne_eq, not_false_eq_true, if_true]
      rw [wrap64_of_lt (by omega)]

theorem chunkTable_bounds (hpos : 0 < chunkSize) (hend : addr + size ≤ 2 ^ 64) :
    ∀ c ∈ chunkTable chunkSize addr size, 0 < c.size ∧ c.size ≤ chunkSize := by
  intro c hc
  rw [chunkTable_eq hpos hend] at hc
  rcases List.mem_append.1 hc with hfull | hrest
  · rcases List.mem_map.1 hfull with ⟨i, -, rfl⟩
    exact ⟨hpos, le_refl _⟩
  · by_cases hmod : size % chunkSize = 0
    · simp [hmod] at hrest
    · obtain rfl : c = ⟨addr + size / chunkSize * chunkSize, size % chunkSize⟩ := by
        simpa [hmod] using hrest
      exact ⟨Nat.pos_of_ne_zero hmod, (Nat.mod_lt _ hpos).le⟩

/-- Chunk `i` stands `i` chunk sizes behind the start. -/
theorem chunkTable_start (hpos : 0 < chunkSize) (hend : addr + size ≤ 2 ^ 64) {i : Nat}
    {c : ShamblesChunk} (hc : (chunkTable chunkSize addr size)[i]? = some c) :
    c.start = addr + i * chunkSize := by
  rw [chunkTable_eq hpos hend] at hc
  rcases Nat.lt_or_ge i (size / chunkSize) with hfull | hlast
  · rw [List.getElem?_append_left (by simpa using hfull)] at hc
    obtain rfl : (⟨addr + i * chunkSize, chunkSize⟩ : ShamblesChunk) = c := by
      simpa [hfull] using hc
    rfl
  · rw [List.getElem?_append_right (by simpa using hlast), List.length_map, List.length_range] at hc
    have hlt := (List.getElem?_eq_some_iff.1 hc).1
    by_cases hmod : size % chunkSize = 0
    · simp [hmod] at hlt
    · -- the remainder is the one chunk behind the full ones
      simp only [hmod, ne_eq, not_false_eq_true, if_true, List.length_singleton] at hc hlt
      obtain rfl : i = size / chunkSize := by omega
      rw [Nat.sub_self, List.getElem?_cons_zero, Option.some.injEq] at hc
      rw [← hc]

/-- Counted in whole chunks the table exceeds its size by less than one. -/
theorem chunkTable_length_mul_lt (hpos : 0 < chunkSize) :
    chunkSize * (chunkTable chunkSize addr size).length < size + chunkSize := by
  have hdiv : chunkSize * (size / chunkSize) + size % chunkSize = size := Nat.div_add_mod _ _
  by_cases hmod : size % chunkSize = 0
  · simp only [chunkTable, hmod, ne_eq, not_true_eq_false, if_false, List.append_nil,
      List.length_map, List.length_range]
    omega
  · simp only [chunkTable, hmod, ne_eq, not_false_eq_true, if_true, List.length_append,
      List.length_map, List.length_range, List.length_singleton, Nat.mul_add, Nat.mul_one]
    omega

theorem chunkTable_ne_nil (chunkSize addr : Nat) (hsize : 0 < size) :
    chunkTable chunkSize addr size ≠ [] := by
  intro hnil
  have hsum := chunkTable_size chunkSize addr size
  simp [hnil] at hsum
  omega

theorem chunkTable_tiles (hpos : 0 < chunkSize) (hend : addr + size ≤ 2 ^ 64) :
    Tiles addr (chunkTable chunkSize addr size) := by
  rw [chunkTable_eq hpos hend, tiles_append]
  refine ⟨tiles_range _ _ _, ?_⟩
  by_cases hmod : size % chunkSize = 0
  · simp [hmod, Tiles]
  · simp [hmod, Tiles, Function.comp_def]

end ChunkTable

/-- The region is cut as `addRegion` cuts it, inside the address space. -/
def Cut (chunkSize : Nat) (region : ShamblesRegion) : Prop :=
  region.chunks = chunkTable chunkSize region.start region.size ∧
    region.start + region.size ≤ 2 ^ 64

instance (chunkSize : Nat) (region : ShamblesRegion) : Decidable (Cut chunkSize region) :=
  inferInstanceAs (Decidable (_ ∧ _))

namespace Cut

variable {chunkSize : Nat} {region : ShamblesRegion}

theorem tiles (h : Cut chunkSize region) (hpos : 0 < chunkSize) :
    Tiles region.start region.chunks := by
  rw [h.1]
  exact chunkTable_tiles hpos h.2

theorem bounds (h : Cut chunkSize region) (hpos : 0 < chunkSize) :
    ∀ c ∈ region.chunks, 0 < c.size ∧ c.size ≤ chunkSize := by
  rw [h.1]
  exact chunkTable_bounds hpos h.2

theorem start_eq (h : Cut chunkSize region) (hpos : 0 < chunkSize) {i : Nat} {c : ShamblesChunk}
    (hc : region.chunks[i]? = some c) : c.start = region.start + i * chunkSize := by
  rw [h.1] at hc
  exact chunkTable_start hpos h.2 hc

theorem span_lt (h : Cut chunkSize region) (hpos : 0 < chunkSize) :
    chunkSize * region.nChunks < region.size + chunkSize := by
  rw [ShamblesRegion.nChunks, h.1]
  exact chunkTable_length_mul_lt hpos

end Cut

theorem chunkTableOf_size : ∀ (addr : Nat) (sizes : List Nat),
    ((chunkTableOf addr sizes).map ShamblesChunk.size).sum = sizes.sum := by
  intro addr sizes
  induction sizes generalizing addr with
  | nil => rfl
  | cons size sizes ih => simp [chunkTableOf, ih]

/-- Inside the address space the chunks of `addRegionChunks` tile. -/
theorem chunkTableOf_tiles {sizes : List Nat} :
    ∀ {addr : Nat}, addr + sizes.sum < 2 ^ 64 → Tiles addr (chunkTableOf addr sizes) := by
  induction sizes with
  | nil =>
      intro addr _
      trivial
  | cons size sizes ih =>
      intro addr hend
      have hend' : addr + size + sizes.sum < 2 ^ 64 := by simpa [Nat.add_assoc] using hend
      have hnext : wrap64 (addr + size) = addr + size := wrap64_of_lt (by omega)
      refine ⟨rfl, ?_⟩
      rw [hnext]
      exact ih hend'

/-- The chunks of `addRegionChunks` begin at `addr` and end, up to wrapping, with their sizes. -/
theorem chunkTableOf_getLast {sizes : List Nat} :
    ∀ {addr : Nat} {d : ShamblesChunk}, (chunkTableOf addr sizes).getLast? = some d →
      wrap64 (d.start + d.size) = wrap64 (addr + sizes.sum) := by
  induction sizes with
  | nil =>
      intro addr d hd
      simp [chunkTableOf] at hd
  | cons size sizes ih =>
      intro addr d hd
      cases sizes with
      | nil =>
          obtain rfl : (⟨addr, size⟩ : ShamblesChunk) = d := by simpa [chunkTableOf] using hd
          simp
      | cons next sizes =>
          have hlast : wrap64 (d.start + d.size) =
              wrap64 (wrap64 (addr + size) + (next :: sizes).sum) :=
            ih (by simpa [chunkTableOf] using hd)
          rw [hlast]
          simp only [List.sum_cons, wrap64]
          omega

end Structures
end Shambles
