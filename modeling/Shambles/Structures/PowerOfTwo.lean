import Shambles.Structures.ChunkInfo

/-!
# PowerOfTwo — the build with shifts and masks

With `P2CHSIZE` defined, `structures.c` divides by the chunk size with a shift and a mask.  The
shift is derived from the configured size, and the size is then built again as `1 << CHUNK_SHIFT`.
The constant is an `int`: for the shift 31 it is negative and its sign fills the upper half of
`CHUNK_SIZE`, and from 32 on the shift is not defined.

* `Agrees`: the table of a region and the chunk of every address are those of the default build.
* `agrees_iff`: the chunk sizes and regions for which this is so.
-/

namespace Shambles
namespace Structures

/-! ## The build -/

/-- `CHUNK_SHIFT` and `CHUNK_SIZE` -/
structure ChunkCut where
  chunkShift : Nat
  chunkSize : Nat
  deriving DecidableEq, Repr

/-- `1 << n`; a shift by the width of `int` or more is not defined. -/
def intShift (n : Nat) : Option (BitVec 32) :=
  if n < 32 then some (1#32 <<< n) else none

/-- The part of `shamblesStructsInit` under `P2CHSIZE`. -/
def chunkCut (chunkSize : Nat) : Option ChunkCut :=
  let chunkShift := 63 - clz64 chunkSize
  (intShift chunkShift).map fun one => ⟨chunkShift, ofInt one.toInt⟩

/-- The loop of `addRegion` and the remainder behind it. -/
def cutInto (nChunks mod chunkSize addr : Nat) : List ShamblesChunk :=
  (List.range nChunks).map (fun i => ⟨wrap64 (addr + i * chunkSize), chunkSize⟩) ++
    if mod ≠ 0 then [⟨wrap64 (addr + nChunks * chunkSize), mod⟩] else []

def chunkTableP2 (c : ChunkCut) (addr size : Nat) : List ShamblesChunk :=
  cutInto (shr64 size c.chunkShift) (size &&& sub64 c.chunkSize 1) c.chunkSize addr

def addRegionP2 (g : Geometry) (c : ChunkCut) (root : Root g) (output chunksPtr addr size : Nat) :
    ShamblesRegion × Root g :=
  (⟨addr, chunkTableP2 c addr size, chunksPtr⟩,
    registerRegion g root output addr (wrap64 (addr + size)))

/-- `((uint64_t)(addr - region->start)) >> CHUNK_SHIFT` -/
def chunkIndexP2 (c : ChunkCut) (region : ShamblesRegion) (addr : Nat) : Nat :=
  shr64 (sub64 addr region.start) c.chunkShift

def getChunkInfoP2 {g : Geometry} (c : ChunkCut) (tree : TreeState g) (addr : Nat) :
    Option (RegionPtr × Nat) :=
  match getRegion g tree.root addr with
  | none => none
  | some p => (tree.regions.lookup p).map fun region => (p, chunkIndexP2 c region addr)

/-- Both builds make the same region out of `size` bytes at `addr`, and find the same chunk for
every address. -/
def Agrees (g : Geometry) (chunkSize addr size : Nat) : Prop :=
  ∃ c, chunkCut chunkSize = some c ∧
    (∀ root output chunksPtr,
      addRegionP2 g c root output chunksPtr addr size =
        addRegion g chunkSize root output chunksPtr addr size) ∧
    ∀ (tree : TreeState g) a, getChunkInfoP2 c tree a = getChunkInfo chunkSize tree a

/-! ## The shift -/

theorem shift_two_pow {k : Nat} (hk : k ≤ 63) : 63 - clz64 (2 ^ k) = k := by
  rw [clz64, Nat.log2_two_pow]
  omega

theorem shr64_eq_div {k : Nat} (hk : k ≤ 63) (x : Nat) : shr64 x k = x / 2 ^ k := by
  rw [shr64, Nat.mod_eq_of_lt (by omega), Nat.shiftRight_eq_div_pow]

/-- Up to bit 30 the constant keeps its value. -/
theorem ofInt_shift : ∀ k < 31, ofInt (1#32 <<< k).toInt = 2 ^ k := by
  decide

theorem chunkCut_two_pow {k : Nat} (hk : k < 31) : chunkCut (2 ^ k) = some ⟨k, 2 ^ k⟩ := by
  have hdefined : intShift k = some (1#32 <<< k) := if_pos (by omega)
  simp only [chunkCut, shift_two_pow (show k ≤ 63 by omega), hdefined, Option.map_some,
    ofInt_shift k hk]

/-- The size that is rebuilt from bit 31. -/
def signFilled : Nat :=
  2 ^ 64 - 2 ^ 31

theorem chunkCut_signFilled : chunkCut (2 ^ 31) = some ⟨31, signFilled⟩ := by
  decide

theorem chunkCut_undefined {k : Nat} (hk : 32 ≤ k) (hk' : k ≤ 63) : chunkCut (2 ^ k) = none := by
  have hundefined : intShift k = none := if_neg (by omega)
  simp only [chunkCut, shift_two_pow hk', hundefined, Option.map_none]

/-! ## Tables and lookups -/

theorem chunkTable_eq_cutInto (chunkSize addr size : Nat) :
    chunkTable chunkSize addr size = cutInto (size / chunkSize) (size % chunkSize) chunkSize addr :=
  rfl

theorem chunkTableP2_eq_cutInto {k : Nat} (hk : k ≤ 63) (chunkSize addr size : Nat) :
    chunkTableP2 ⟨k, chunkSize⟩ addr size =
      cutInto (size / 2 ^ k) (size &&& sub64 chunkSize 1) chunkSize addr := by
  simp only [chunkTableP2, shr64_eq_div hk]

theorem cutInto_head? {nChunks : Nat} (h : 0 < nChunks) (mod chunkSize addr : Nat) :
    (cutInto nChunks mod chunkSize addr).head? = some ⟨wrap64 addr, chunkSize⟩ := by
  obtain ⟨n, rfl⟩ : ∃ n, nChunks = n + 1 := ⟨nChunks - 1, by omega⟩
  simp [cutInto, List.range_succ_eq_map]

/-- The index is the quotient whatever became of `CHUNK_SIZE`. -/
theorem getChunkInfoP2_eq {g : Geometry} {k : Nat} (hk : k ≤ 63) (chunkSize : Nat)
    (tree : TreeState g) (a : Nat) :
    getChunkInfoP2 ⟨k, chunkSize⟩ tree a = getChunkInfo (2 ^ k) tree a := by
  unfold getChunkInfoP2 getChunkInfo
  cases getRegion g tree.root a with
  | none => rfl
  | some p =>
      simp only [chunkIndexP2, chunkIndex, shr64_eq_div hk]

theorem chunkTableP2_eq {k : Nat} (hk : k < 31) (addr size : Nat) :
    chunkTableP2 ⟨k, 2 ^ k⟩ addr size = chunkTable (2 ^ k) addr size := by
  have hlt : 2 ^ k < 2 ^ 64 := Nat.pow_lt_pow_right (by omega) (by omega)
  have hpos : 0 < 2 ^ k := Nat.two_pow_pos k
  have hmask : sub64 (2 ^ k) 1 = 2 ^ k - 1 := by
    unfold sub64
    omega
  rw [chunkTable_eq_cutInto, chunkTableP2_eq_cutInto (by omega), hmask,
    Nat.and_two_pow_sub_one_eq_mod]

/-- A region smaller than the chunk is one remainder: the mask keeps the bits below 31. -/
theorem chunkTableP2_signFilled {size : Nat} (hsize : size < 2 ^ 31) (addr : Nat) :
    chunkTableP2 ⟨31, signFilled⟩ addr size = chunkTable (2 ^ 31) addr size := by
  have hmod : size % 2 ^ 31 = size := Nat.mod_eq_of_lt hsize
  have hmask : size &&& sub64 signFilled 1 = size := by
    have hlow : (2 ^ 31 - 1) &&& sub64 signFilled 1 = 2 ^ 31 - 1 := by decide
    calc
      size &&& sub64 signFilled 1
          = (size &&& (2 ^ 31 - 1)) &&& sub64 signFilled 1 := by
            rw [Nat.and_two_pow_sub_one_eq_mod, hmod]
      _ = size &&& (2 ^ 31 - 1) := by rw [Nat.and_assoc, hlow]
      _ = size := by rw [Nat.and_two_pow_sub_one_eq_mod, hmod]
  have hnone : size / 2 ^ 31 = 0 := Nat.div_eq_of_lt hsize
  rw [chunkTable_eq_cutInto, chunkTableP2_eq_cutInto (by decide), hmask, hnone, hmod]
  simp [cutInto]

/-- A full chunk carries the wrong size. -/
theorem chunkTableP2_ne {size : Nat} (hsize : 2 ^ 31 ≤ size) (addr : Nat) :
    chunkTableP2 ⟨31, signFilled⟩ addr size ≠ chunkTable (2 ^ 31) addr size := by
  have hfull : 0 < size / 2 ^ 31 := Nat.div_pos hsize (by decide)
  intro heq
  rw [chunkTable_eq_cutInto, chunkTableP2_eq_cutInto (by decide)] at heq
  have hhead := congrArg List.head? heq
  rw [cutInto_head? hfull, cutInto_head? hfull] at hhead
  simp [signFilled] at hhead

theorem not_agrees_signFilled (g : Geometry) {size : Nat} (hsize : 2 ^ 31 ≤ size) (addr : Nat) :
    ¬ Agrees g (2 ^ 31) addr size := by
  rintro ⟨c, hc, hregion, _⟩
  obtain rfl : (⟨31, signFilled⟩ : ChunkCut) = c :=
    Option.some.inj (chunkCut_signFilled.symm.trans hc)
  refine chunkTableP2_ne hsize addr ?_
  exact congrArg (fun r => r.1.chunks) (hregion (TreeState.init g).root 0 0)

/-- The fast path agrees with the division exactly for chunk sizes up to `2^30`, and for `2^31`
when the region has no full chunk. -/
theorem agrees_iff (g : Geometry) {k : Nat} (hk : k ≤ 63) (addr size : Nat) :
    Agrees g (2 ^ k) addr size ↔ k ≤ 30 ∨ (k = 31 ∧ size < 2 ^ 31) := by
  constructor
  · intro h
    rcases Nat.lt_trichotomy k 31 with hlt | rfl | hgt
    · exact Or.inl (by omega)
    · refine Or.inr ⟨rfl, ?_⟩
      by_contra hge
      exact not_agrees_signFilled g (Nat.le_of_not_lt hge) addr h
    · rcases h with ⟨c, hc, _⟩
      rw [chunkCut_undefined hgt hk] at hc
      cases hc
  · rintro (hlt | ⟨rfl, hsize⟩)
    · refine ⟨_, chunkCut_two_pow (by omega), ?_, fun tree a => getChunkInfoP2_eq hk _ tree a⟩
      intro root output chunksPtr
      simp only [addRegionP2, addRegion, chunkTableP2_eq (show k < 31 by omega)]
    · refine ⟨_, chunkCut_signFilled, ?_, fun tree a => getChunkInfoP2_eq hk _ tree a⟩
      intro root output chunksPtr
      simp only [addRegionP2, addRegion, chunkTableP2_signFilled hsize]

theorem agrees_pages : Agrees (shamblesStructsInit 0x10000 (-1)) (2 ^ 12) 0x700000 0x12345 :=
  (agrees_iff _ (by decide) _ _).2 (Or.inl (by decide))

/-- Chunks of 2 GiB: the table of a region of one chunk says it is almost `2^64` bytes long. -/
theorem two_gib_chunk_misread :
    chunkCut (2 ^ 31) = some ⟨31, 0xffffffff80000000⟩ ∧
      chunkTableP2 ⟨31, 0xffffffff80000000⟩ 0x700000 (2 ^ 31) = [⟨0x700000, 0xffffffff80000000⟩] ∧
      chunkTable (2 ^ 31) 0x700000 (2 ^ 31) = [⟨0x700000, 0x80000000⟩] ∧
      ¬ Agrees (shamblesStructsInit 0x10000 (-1)) (2 ^ 31) 0x700000 (2 ^ 31) :=
  ⟨by decide, by decide, by decide, not_agrees_signFilled _ (by decide) _⟩

end Structures
end Shambles
