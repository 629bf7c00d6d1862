import Shambles.Lib.RadixTree

/-!
# Geometry — the shape of the region tree

`shamblesStructsInit` derives masks, shifts and the depth of the region tree from the size
threshold.  An address then has a path: an index into `root`, one index per inner level and an
index into the array of slot records.  A slot is a block of `2^REGION_SHIFT` bytes.

Two details of the source are kept as they are.  Shift counts are taken modulo 64, as the machine
does for the counts C leaves undefined (`REGION_SHIFT` from 53 on).  The expression
`(1 << ADDR_RELEVANT_BITS) - 1`, by which `root` is sized, shifts an `int` by 39 bits and has no
defined value; its value is the parameter `w`.
-/

namespace Shambles
namespace Structures

open RadixTree

/-! ## Machine words -/

def shl64 (x n : Nat) : Nat :=
  (x <<< (n % 64)) % 2 ^ 64

def shr64 (x n : Nat) : Nat :=
  x >>> (n % 64)

def sub64 (x y : Nat) : Nat :=
  (x + 2 ^ 64 - y) % 2 ^ 64

/-- `__builtin_clzl` -/
def clz64 (x : Nat) : Nat :=
  63 - x.log2

/-- `__builtin_ctzl` -/
def ctz64 (x : Nat) : Nat :=
  ((List.range 64).find? fun i => x.testBit i).getD 64

/-- `__builtin_popcountl` -/
def popcount64 (x : Nat) : Nat :=
  ((List.range 64).filter fun i => x.testBit i).length

/-- The conversion of `int` to `uint64_t`. -/
def ofInt (w : Int) : Nat :=
  (w % 2 ^ 64).toNat

/-! ## `shamblesStructsInit` -/

def addrRelevantBits : Nat :=
  39

def nodeMemorder : Nat :=
  16

def sizeofRegionNode : Nat :=
  32

def sizeofNonLeafNode : Nat :=
  16

def nonLeafNodesArraySize : Nat :=
  shl64 1 nodeMemorder / sizeofNonLeafNode

def leafNodesArraySize : Nat :=
  shl64 1 nodeMemorder / sizeofRegionNode

def nonLeafShift : Nat :=
  ctz64 nonLeafNodesArraySize

/-- The variables that depend on the configuration. -/
structure Geometry where
  regionShift : Nat
  regionNodeMask : Nat
  nonLeafNodesDepth : Nat
  nonLeafNodeMask0 : Nat
  nonLeafShift0 : Nat
  /-- The number of entries allocated for `root`. -/
  rootEntries : Nat
  deriving DecidableEq, Repr

/-- `while(NON_LEAF_NODE_MASK_0 < (1LLU << ADDR_RELEVANT_BITS))`; returns depth and mask. -/
def deepen : (fuel depth mask : Nat) → Nat × Nat
  | 0, depth, mask => (depth, mask)
  | fuel + 1, depth, mask =>
      if mask < shl64 1 addrRelevantBits then
        deepen fuel (depth + 1) (shl64 mask nonLeafShift)
      else
        (depth, mask)

/-- The geometry for a given `REGION_SHIFT`. -/
def geometryOf (regionShift : Nat) (w : Int) : Geometry :=
  let mask := shl64 (shl64 1 nodeMemorder / sizeofNonLeafNode - 1)
    (regionShift + ctz64 leafNodesArraySize)
  let r := deepen 64 0 mask
  { regionShift := regionShift
    regionNodeMask := shl64 (shl64 1 nodeMemorder / sizeofRegionNode - 1) regionShift
    nonLeafNodesDepth := r.1
    nonLeafNodeMask0 := r.2
    nonLeafShift0 := ctz64 r.2
    rootEntries := popcount64 (r.2 &&& ofInt w) }

def shamblesStructsInit (sizeThresshold : Nat) (w : Int) : Geometry :=
  geometryOf (63 - clz64 sizeThresshold) w

/-! ## Paths -/

namespace Geometry

def rootIndex (g : Geometry) (addr : Nat) : Nat :=
  addr &&& g.nonLeafNodeMask0 &&& addrRelevantBits

def leafIndex (g : Geometry) (addr : Nat) : Nat :=
  shr64 (addr &&& g.regionNodeMask) g.regionShift

/-- The indices from the loop over the inner levels, and then the leaf index. -/
def innerPath (leaf addr : Nat) : (depth mask shift : Nat) → Path depth
  | 0, _, _ => leaf
  | depth + 1, mask, shift =>
      (shr64 (addr &&& mask) shift,
        innerPath leaf addr depth (mask >>> nonLeafShift) (sub64 shift nonLeafShift))

def path (g : Geometry) (addr : Nat) : Path (g.nonLeafNodesDepth + 1) :=
  (g.rootIndex addr,
    innerPath (g.leafIndex addr) addr g.nonLeafNodesDepth (g.nonLeafNodeMask0 >>> nonLeafShift)
      (sub64 g.nonLeafShift0 nonLeafShift))

/-- The number of the slot an address lies in. -/
def slot (g : Geometry) (addr : Nat) : Nat :=
  addr >>> g.regionShift

end Geometry

@[simp] theorem nonLeafShift_eq : nonLeafShift = 12 := by decide

@[simp] theorem nonLeafNodesArraySize_eq : nonLeafNodesArraySize = 4096 := by decide

@[simp] theorem leafNodesArraySize_eq : leafNodesArraySize = 2048 := by decide

/-! ## Masks and shifts as division -/

/-- A field of `k` bits at position `n`, cut out with a 64-bit mask. -/
theorem shr64_and_mask {a n : Nat} (k : Nat) (ha : a < 2 ^ 64) (hn : n < 64) :
    shr64 (a &&& shl64 (2 ^ k - 1) n) n = a / 2 ^ n % 2 ^ k := by
  have hmod : n % 64 = n := Nat.mod_eq_of_lt hn
  rw [← Nat.shiftRight_eq_div_pow]
  apply Nat.eq_of_testBit_eq
  intro i
  simp only [shr64, shl64, hmod, Nat.testBit_shiftRight, Nat.testBit_and, Nat.testBit_mod_two_pow,
    Nat.testBit_shiftLeft, Nat.testBit_two_pow_sub_one]
  by_cases hbit : a.testBit (n + i) = true
  · -- A bit that is set lies below 64, so the truncated mask still has it.
    have hlt : n + i < 64 := by
      by_contra hge
      have hzero : a.testBit (n + i) = false :=
        Nat.testBit_lt_two_pow (lt_of_lt_of_le ha (Nat.pow_le_pow_right (by decide) (by omega)))
      rw [hzero] at hbit
      cases hbit
    simp [hbit, hlt]
  · simp [hbit]

/-- Equality of two neighbouring bit fields is equality of the joint field. -/
theorem mod_two_pow_add_eq_iff (x y m k : Nat) :
    x % 2 ^ (m + k) = y % 2 ^ (m + k) ↔
      x / 2 ^ m % 2 ^ k = y / 2 ^ m % 2 ^ k ∧ x % 2 ^ m = y % 2 ^ m := by
  rw [Nat.pow_add, Nat.mod_mul, Nat.mod_mul]
  constructor
  · intro h
    have hlow : x % 2 ^ m = y % 2 ^ m := by
      have hmod := congrArg (· % 2 ^ m) h
      simpa using hmod
    rw [hlow] at h
    exact ⟨Nat.eq_of_mul_eq_mul_left (Nat.two_pow_pos m) (Nat.add_left_cancel h), hlow⟩
  · rintro ⟨hhigh, hlow⟩
    rw [hhigh, hlow]

theorem shl64_eq {x n k : Nat} (hx : x < 2 ^ k) (hn : n + k ≤ 64) (hk : 0 < k) :
    shl64 x n = x * 2 ^ n := by
  have hmod : n % 64 = n := Nat.mod_eq_of_lt (by omega)
  have hlt : x * 2 ^ n < 2 ^ 64 := by
    calc
      x * 2 ^ n < 2 ^ k * 2 ^ n := Nat.mul_lt_mul_of_pos_right hx (Nat.two_pow_pos n)
      _ = 2 ^ (n + k) := by rw [Nat.add_comm, Nat.pow_add]
      _ ≤ 2 ^ 64 := Nat.pow_le_pow_right (by decide) hn
  rw [shl64, hmod, Nat.shiftLeft_eq, Nat.mod_eq_of_lt hlt]

/-- One level down, the mask of an inner level is the mask of the next one, and so is the shift. -/
theorem level_down {n : Nat} (hn : n + 24 ≤ 64) :
    shl64 (2 ^ 12 - 1) (n + 12) >>> nonLeafShift = shl64 (2 ^ 12 - 1) n ∧
      sub64 (n + 12) nonLeafShift = n := by
  refine ⟨?_, ?_⟩
  · rw [shl64_eq (k := 12) (by decide) (by omega) (by decide),
      shl64_eq (k := 12) (by decide) (by omega) (by decide), nonLeafShift_eq,
      Nat.shiftRight_eq_div_pow, Nat.pow_add, ← Nat.mul_assoc, Nat.mul_div_cancel]
    exact Nat.two_pow_pos 12
  · rw [nonLeafShift_eq, sub64]
    omega

/-! ## Regular geometries -/

/-- The indices of `addr` as the bit fields they are meant to be: 11 bits for the leaf from bit
`r` on, 12 bits for every level above. -/
def fieldPath (r addr : Nat) : (depth : Nat) → Path depth
  | 0 => addr / 2 ^ r % 2 ^ 11
  | depth + 1 => (addr / 2 ^ (r + 11 + 12 * depth) % 2 ^ 12, fieldPath r addr depth)

theorem fieldPath_eq_iff (r a b : Nat) : ∀ depth, fieldPath r a depth = fieldPath r b depth ↔
    a / 2 ^ r % 2 ^ (11 + 12 * depth) = b / 2 ^ r % 2 ^ (11 + 12 * depth) := by
  intro depth
  induction depth with
  | zero => exact Iff.rfl
  | succ depth ih =>
      have hfield : ∀ c, c / 2 ^ (r + 11 + 12 * depth) = c / 2 ^ r / 2 ^ (11 + 12 * depth) := by
        intro c
        rw [Nat.div_div_eq_div_mul, ← Nat.pow_add, Nat.add_assoc]
      have hexp : 11 + 12 * (depth + 1) = (11 + 12 * depth) + 12 := by omega
      rw [hexp, mod_two_pow_add_eq_iff, ← ih, ← hfield, ← hfield]
      exact Prod.mk.injEq _ _ _ _ ▸ Iff.rfl

/-- Every index stays inside its array. -/
def Bounded : (depth : Nat) → Path depth → Prop
  | 0, i => i < leafNodesArraySize
  | depth + 1, (i, p) => i < nonLeafNodesArraySize ∧ Bounded depth p

theorem fieldPath_bounded (r addr : Nat) : ∀ depth, Bounded depth (fieldPath r addr depth) := by
  intro depth
  induction depth with
  | zero =>
      simp only [Bounded, fieldPath, leafNodesArraySize_eq]
      exact Nat.mod_lt _ (by decide)
  | succ depth ih =>
      refine ⟨?_, ih⟩
      rw [nonLeafNodesArraySize_eq]
      exact Nat.mod_lt _ (by decide)

namespace Geometry

/-- The shape `shamblesStructsInit` aims at: the fields of a path lie next to each other, from the
slot bits up to `nonLeafShift0`. -/
structure Regular (g : Geometry) : Prop where
  regionNodeMask : g.regionNodeMask = shl64 (2 ^ 11 - 1) g.regionShift
  nonLeafShift0 : g.nonLeafShift0 = g.regionShift + 11 + 12 * g.nonLeafNodesDepth
  nonLeafNodeMask0 : g.nonLeafNodeMask0 = shl64 (2 ^ 12 - 1) g.nonLeafShift0
  bound : g.nonLeafShift0 < 64
  inner : 0 < g.nonLeafNodesDepth → g.nonLeafShift0 + 12 ≤ 64
  rootIndex : g.nonLeafNodeMask0 &&& addrRelevantBits = 0

theorem regular_geometryOf {r : Nat} (hr : r < 53) (w : Int) : (geometryOf r w).Regular := by
  have hall : ∀ r < 53, ∀ g, g = geometryOf r 0 →
      g.regionNodeMask = shl64 (2 ^ 11 - 1) g.regionShift ∧
      g.nonLeafShift0 = g.regionShift + 11 + 12 * g.nonLeafNodesDepth ∧
      g.nonLeafNodeMask0 = shl64 (2 ^ 12 - 1) g.nonLeafShift0 ∧ g.nonLeafShift0 < 64 ∧
      (0 < g.nonLeafNodesDepth → g.nonLeafShift0 + 12 ≤ 64) ∧
      g.nonLeafNodeMask0 &&& addrRelevantBits = 0 := by
    simp only [forall_eq]
    decide +kernel
  rcases hall r hr _ rfl with ⟨h₁, h₂, h₃, h₄, h₅, h₆⟩
  exact ⟨h₁, h₂, h₃, h₄, h₅, h₆⟩

namespace Regular

variable {g : Geometry} {a b : Nat}

theorem rootIndex_eq_zero (h : g.Regular) (a : Nat) : g.rootIndex a = 0 := by
  unfold Geometry.rootIndex
  rw [Nat.and_assoc, h.rootIndex, Nat.and_zero]

theorem leafIndex_eq (h : g.Regular) (ha : a < 2 ^ 64) :
    g.leafIndex a = a / 2 ^ g.regionShift % 2 ^ 11 := by
  have hlt : g.regionShift < 64 := by
    have hbound := h.bound
    rw [h.nonLeafShift0] at hbound
    omega
  unfold Geometry.leafIndex
  rw [h.regionNodeMask]
  exact shr64_and_mask 11 ha hlt

/-- The loop over the inner levels, with mask and shift where level `depth` has them. -/
theorem innerPath_eq (h : g.Regular) (ha : a < 2 ^ 64) :
    ∀ (depth mask shift : Nat), g.regionShift + 11 + 12 * depth + (if depth = 0 then 0 else 12) ≤ 64 →
      (∀ n, depth = n + 1 → mask = shl64 (2 ^ 12 - 1) (g.regionShift + 11 + 12 * n) ∧
        shift = g.regionShift + 11 + 12 * n) →
      innerPath (g.leafIndex a) a depth mask shift = fieldPath g.regionShift a depth := by
  intro depth
  induction depth with
  | zero =>
      intro mask shift _ _
      exact h.leafIndex_eq ha
  | succ depth ih =>
      intro mask shift hbits hmask
      rcases hmask depth rfl with ⟨hm, hs⟩
      simp only [Nat.add_eq_zero_iff, Nat.one_ne_zero, and_false, if_false] at hbits
      have hindex : shr64 (a &&& mask) shift =
          a / 2 ^ (g.regionShift + 11 + 12 * depth) % 2 ^ 12 := by
        rw [hm, hs]
        exact shr64_and_mask 12 ha (by omega)
      have hrest : innerPath (g.leafIndex a) a depth (mask >>> nonLeafShift) (sub64 shift nonLeafShift) =
          fieldPath g.regionShift a depth := by
        refine ih _ _ ?_ ?_
        · split <;> omega
        · rintro n rfl
          have hexp : g.regionShift + 11 + 12 * (n + 1) = (g.regionShift + 11 + 12 * n) + 12 := by
            omega
          rw [hm, hs, hexp]
          exact level_down (by omega)
      simp only [innerPath, fieldPath, hindex, hrest]

theorem path_eq (h : g.Regular) (ha : a < 2 ^ 64) :
    g.path a = (0, fieldPath g.regionShift a g.nonLeafNodesDepth) := by
  have hinner : innerPath (g.leafIndex a) a g.nonLeafNodesDepth
      (g.nonLeafNodeMask0 >>> nonLeafShift) (sub64 g.nonLeafShift0 nonLeafShift) =
        fieldPath g.regionShift a g.nonLeafNodesDepth := by
    refine h.innerPath_eq ha _ _ _ ?_ ?_
    · have hbound := h.bound
      have hinner := h.inner
      rw [h.nonLeafShift0] at hbound hinner
      split <;> omega
    · intro n hn
      have hinner := h.inner (by omega)
      have hshift := h.nonLeafShift0
      rw [hn] at hshift
      have hexp : g.nonLeafShift0 = (g.regionShift + 11 + 12 * n) + 12 := by omega
      rw [h.nonLeafNodeMask0, hexp]
      exact level_down (by omega)
  unfold Geometry.path
  rw [h.rootIndex_eq_zero, hinner]

theorem path_bounded (h : g.Regular) (ha : a < 2 ^ 64) :
    Bounded g.nonLeafNodesDepth (g.path a).2 := by
  rw [h.path_eq ha]
  exact fieldPath_bounded _ _ _

/-- A path determines the slot bits up to `nonLeafShift0`, and nothing else. -/
theorem path_eq_iff (h : g.Regular) (ha : a < 2 ^ 64) (hb : b < 2 ^ 64) :
    g.path a = g.path b ↔
      g.slot a % 2 ^ (11 + 12 * g.nonLeafNodesDepth) =
        g.slot b % 2 ^ (11 + 12 * g.nonLeafNodesDepth) := by
  rw [h.path_eq ha, h.path_eq hb]
  simp only [Prod.mk.injEq, true_and, fieldPath_eq_iff, Geometry.slot, Nat.shiftRight_eq_div_pow]

/-- Where the fields reach bit 39, slots of one `2^39`-aligned window have different paths. -/
theorem path_eq_iff_slot_eq (h : g.Regular) (hfull : 39 ≤ g.nonLeafShift0) (ha : a < 2 ^ 64)
    (hb : b < 2 ^ 64) (hwindow : a / 2 ^ 39 = b / 2 ^ 39) :
    g.path a = g.path b ↔ g.slot a = g.slot b := by
  rw [h.path_eq_iff ha hb]
  refine ⟨?_, fun hslot => by rw [hslot]⟩
  intro hlow
  -- Above `nonLeafShift0` both agree because they are in one window.
  have habove : ∀ c, g.slot c / 2 ^ (11 + 12 * g.nonLeafNodesDepth) =
      c / 2 ^ 39 / 2 ^ (g.nonLeafShift0 - 39) := by
    intro c
    have hexp : g.regionShift + (11 + 12 * g.nonLeafNodesDepth) = 39 + (g.nonLeafShift0 - 39) := by
      have hshift := h.nonLeafShift0
      omega
    rw [Geometry.slot, Nat.shiftRight_eq_div_pow, Nat.div_div_eq_div_mul, Nat.div_div_eq_div_mul,
      ← Nat.pow_add, ← Nat.pow_add, hexp]
  have hhigh : g.slot a / 2 ^ (11 + 12 * g.nonLeafNodesDepth) =
      g.slot b / 2 ^ (11 + 12 * g.nonLeafNodesDepth) := by
    rw [habove, habove, hwindow]
  calc
    g.slot a = 2 ^ (11 + 12 * g.nonLeafNodesDepth) *
        (g.slot a / 2 ^ (11 + 12 * g.nonLeafNodesDepth)) +
          g.slot a % 2 ^ (11 + 12 * g.nonLeafNodesDepth) := (Nat.div_add_mod _ _).symm
    _ = 2 ^ (11 + 12 * g.nonLeafNodesDepth) *
        (g.slot b / 2 ^ (11 + 12 * g.nonLeafNodesDepth)) +
          g.slot b % 2 ^ (11 + 12 * g.nonLeafNodesDepth) := by rw [hhigh, hlow]
    _ = g.slot b := Nat.div_add_mod _ _

end Regular

/-! ## Exactness -/

/-- Slots of the 39 relevant bits and their paths correspond one to one, and every index stays
inside the array it is used on. -/
structure Exact (g : Geometry) : Prop where
  path_eq_iff : ∀ a < 2 ^ 39, ∀ b < 2 ^ 39, (g.path a = g.path b ↔ g.slot a = g.slot b)
  rootIndex_lt : ∀ a < 2 ^ 39, g.rootIndex a < g.rootEntries
  bounded : ∀ a < 2 ^ 39, Bounded g.nonLeafNodesDepth (g.path a).2

/-- The values of `REGION_SHIFT` for which the fields of a path end at bit 39 or above. -/
def FullShift (r : Nat) : Prop :=
  r = 4 ∨ r = 16 ∨ (28 ≤ r ∧ r ≤ 52)

instance (r : Nat) : Decidable (FullShift r) :=
  inferInstanceAs (Decidable (_ ∨ _ ∨ _))

theorem fullShift_iff {r : Nat} (hr : r < 53) (w : Int) :
    39 ≤ (geometryOf r w).nonLeafShift0 ↔ FullShift r := by
  have hall : ∀ r < 53, (39 ≤ (geometryOf r 0).nonLeafShift0 ↔ FullShift r) := by decide +kernel
  exact hall r hr

theorem popcount64_pos_iff {x : Nat} : 0 < popcount64 x ↔ ∃ i < 64, x.testBit i = true := by
  unfold popcount64
  rw [List.length_pos_iff_exists_mem]
  simp only [List.mem_filter, List.mem_range]

/-- `root` gets an entry only if the mask it is sized by has high bits, that is, if the undefined
`int` came out negative. -/
theorem Regular.rootEntries_pos_iff {r : Nat} {w : Int} (h : (geometryOf r w).Regular)
    (hfull : 39 ≤ (geometryOf r w).nonLeafShift0) (hlo : -2 ^ 31 ≤ w) (hhi : w < 2 ^ 31) :
    0 < (geometryOf r w).rootEntries ↔ w < 0 := by
  have hentries : (geometryOf r w).rootEntries =
      popcount64 ((geometryOf r w).nonLeafNodeMask0 &&& ofInt w) := rfl
  have hbound := h.bound
  rw [hentries, h.nonLeafNodeMask0, popcount64_pos_iff]
  generalize (geometryOf r w).nonLeafShift0 = n at hfull hbound
  have hmod : n % 64 = n := Nat.mod_eq_of_lt hbound
  constructor
  · rintro ⟨i, hi, hbit⟩
    by_contra hneg
    simp only [shl64, hmod, Nat.testBit_and, Nat.testBit_mod_two_pow, Nat.testBit_shiftLeft,
      Bool.and_eq_true, decide_eq_true_eq] at hbit
    -- A non-negative `int` has no bit at or above 31.
    have hsmall : ofInt w < 2 ^ i := by
      have hlt : ofInt w < 2 ^ 31 := by
        unfold ofInt
        omega
      exact lt_of_lt_of_le hlt (Nat.pow_le_pow_right (by decide) (by omega))
    have hzero := Nat.testBit_lt_two_pow hsmall
    rw [hbit.2] at hzero
    cases hzero
  · intro hneg
    refine ⟨n, hbound, ?_⟩
    have hw : ofInt w = 2 ^ 64 - ((-w - 1).toNat + 1) := by
      unfold ofInt
      omega
    have hm : (-w - 1).toNat < 2 ^ 64 := by omega
    have hclear : (-w - 1).toNat.testBit n = false := by
      have hlt : (-w - 1).toNat < 2 ^ 31 := by omega
      exact Nat.testBit_lt_two_pow
        (lt_of_lt_of_le hlt (Nat.pow_le_pow_right (by decide) (by omega)))
    rw [Nat.testBit_and, hw, Nat.testBit_two_pow_sub_succ hm, hclear, shl64, hmod,
      Nat.testBit_mod_two_pow, Nat.testBit_shiftLeft, Nat.testBit_two_pow_sub_one]
    simp [hbound]

theorem slot_pow (g : Geometry) {n : Nat} (hn : g.regionShift ≤ n) :
    g.slot (2 ^ n) = 2 ^ (n - g.regionShift) := by
  rw [Geometry.slot, Nat.shiftRight_eq_div_pow, Nat.pow_div hn (by decide)]

/-- When the fields end below bit 39, address 0 and the first address behind them share a path. -/
theorem Regular.not_exact {g : Geometry} (h : g.Regular) (hshort : g.nonLeafShift0 < 39) :
    ¬ g.Exact := by
  intro hexact
  have hle : g.regionShift ≤ g.nonLeafShift0 := by
    have hshift := h.nonLeafShift0
    omega
  have hlt : 2 ^ g.nonLeafShift0 < 2 ^ 39 := Nat.pow_lt_pow_right (by decide) hshort
  have hsub : g.nonLeafShift0 - g.regionShift = 11 + 12 * g.nonLeafNodesDepth := by
    have hshift := h.nonLeafShift0
    omega
  have hpath : g.path (2 ^ g.nonLeafShift0) = g.path 0 := by
    rw [h.path_eq_iff (by omega) (by decide), slot_pow g hle, hsub]
    simp [Geometry.slot]
  have hslot := (hexact.path_eq_iff _ hlt 0 (by decide)).1 hpath
  rw [slot_pow g hle] at hslot
  simp [Geometry.slot] at hslot

/-- Only the size of `root` depends on `w`. -/
theorem geometryOf_eq (r : Nat) (w : Int) :
    geometryOf r w = { geometryOf r 0 with rootEntries := (geometryOf r w).rootEntries } := rfl

theorem path_eq_iff_of_rootEntries (g : Geometry) (n a b : Nat) :
    ({ g with rootEntries := n } : Geometry).path a = ({ g with rootEntries := n } : Geometry).path b ↔
      g.path a = g.path b := Iff.rfl

/-- From `REGION_SHIFT` 53 on the shift count wraps and the path depends on bits inside the slot. -/
theorem not_exact_of_wrapped {r : Nat} (hr : 53 ≤ r) (hr' : r < 64) (w : Int) :
    ¬ (geometryOf r w).Exact := by
  have hall : ∀ r < 64, 53 ≤ r →
      (geometryOf r 0).path 0 ≠ (geometryOf r 0).path 2048 ∧
        (geometryOf r 0).slot 0 = (geometryOf r 0).slot 2048 := by
    decide +kernel
  rcases hall r hr' hr with ⟨hpath, hslot⟩
  intro hexact
  rw [geometryOf_eq] at hexact
  have hshared := (hexact.path_eq_iff 0 (by decide) 2048 (by decide)).2 hslot
  exact hpath ((path_eq_iff_of_rootEntries _ _ _ _).1 hshared)

theorem shamblesStructsInit_eq {sizeThresshold : Nat} (w : Int) (hpos : 1 ≤ sizeThresshold)
    (hsize : sizeThresshold < 2 ^ 64) :
    shamblesStructsInit sizeThresshold w = geometryOf sizeThresshold.log2 w := by
  have hlog : sizeThresshold.log2 < 64 := (Nat.log2_lt (by omega)).2 hsize
  have hshift : 63 - clz64 sizeThresshold = sizeThresshold.log2 := by
    unfold clz64
    omega
  rw [shamblesStructsInit, hshift]

theorem regular_init {sizeThresshold : Nat} (w : Int) (hpos : 1 ≤ sizeThresshold)
    (hsize : sizeThresshold < 2 ^ 48) : (shamblesStructsInit sizeThresshold w).Regular := by
  have hlog : sizeThresshold.log2 < 48 := (Nat.log2_lt (by omega)).2 hsize
  rw [shamblesStructsInit_eq w hpos (by omega)]
  exact regular_geometryOf (by omega) w

/-- A region that reaches the threshold is at least one slot long. -/
theorem slot_le_threshold {sizeThresshold : Nat} (w : Int) (hpos : 1 ≤ sizeThresshold)
    (hsize : sizeThresshold < 2 ^ 64) :
    2 ^ (shamblesStructsInit sizeThresshold w).regionShift ≤ sizeThresshold := by
  rw [shamblesStructsInit_eq w hpos hsize]
  exact Nat.log2_self_le (by omega)

/-- The geometry is exact for these thresholds, and only if the undefined `int` is negative. -/
theorem exact_iff (sizeThresshold : Nat) (w : Int) (hpos : 1 ≤ sizeThresshold)
    (hsize : sizeThresshold < 2 ^ 64) (hlo : -2 ^ 31 ≤ w) (hhi : w < 2 ^ 31) :
    (shamblesStructsInit sizeThresshold w).Exact ↔ FullShift sizeThresshold.log2 ∧ w < 0 := by
  have hlog : sizeThresshold.log2 < 64 := (Nat.log2_lt (by omega)).2 hsize
  rw [shamblesStructsInit_eq w hpos hsize]
  by_cases hwrap : 53 ≤ sizeThresshold.log2
  · refine iff_of_false (not_exact_of_wrapped hwrap hlog w) ?_
    unfold FullShift
    omega
  · have hreg : (geometryOf sizeThresshold.log2 w).Regular := regular_geometryOf (by omega) w
    have hfull := fullShift_iff (r := sizeThresshold.log2) (by omega) w
    by_cases hshort : (geometryOf sizeThresshold.log2 w).nonLeafShift0 < 39
    · refine iff_of_false (hreg.not_exact hshort) ?_
      rw [← hfull]
      omega
    · have h39 : 39 ≤ (geometryOf sizeThresshold.log2 w).nonLeafShift0 := by omega
      have hroot := hreg.rootEntries_pos_iff h39 hlo hhi
      constructor
      · intro hexact
        refine ⟨hfull.1 h39, hroot.1 ?_⟩
        exact lt_of_le_of_lt (Nat.zero_le _) (hexact.rootIndex_lt 0 (by decide))
      · rintro ⟨_, hneg⟩
        refine ⟨?_, ?_, ?_⟩
        · intro a ha b hb
          refine hreg.path_eq_iff_slot_eq h39 (by omega) (by omega) ?_
          rw [Nat.div_eq_of_lt ha, Nat.div_eq_of_lt hb]
        · intro a _
          rw [hreg.rootIndex_eq_zero]
          exact hroot.2 hneg
        · intro a ha
          exact hreg.path_bounded (by omega)

/-- The default threshold, with the shift folded to 0 as a compiler may do. -/
theorem exact_default : (shamblesStructsInit 0x10000 (-1)).Exact :=
  (exact_iff 0x10000 (-1) (by decide) (by decide) (by decide) (by decide)).2
    ⟨by decide, by decide⟩

/-- With a threshold of 128 KiB the addresses 0 and `2^28` lie in different slots and share a
path, whatever the size of `root`. -/
theorem not_exact_of_128KiB :
    (shamblesStructsInit 0x20000 (-1)).path 0 = (shamblesStructsInit 0x20000 (-1)).path (2 ^ 28) ∧
      (shamblesStructsInit 0x20000 (-1)).slot 0 ≠ (shamblesStructsInit 0x20000 (-1)).slot (2 ^ 28) ∧
      ∀ w, ¬ (shamblesStructsInit 0x20000 w).Exact := by
  refine ⟨by decide, by decide, ?_⟩
  intro w hexact
  have hpath : (shamblesStructsInit 0x20000 w).path 0 =
      (shamblesStructsInit 0x20000 w).path (2 ^ 28) := by
    have hconst : (shamblesStructsInit 0x20000 (-1)).path 0 =
        (shamblesStructsInit 0x20000 (-1)).path (2 ^ 28) := by decide
    exact hconst
  have hslot := (hexact.path_eq_iff 0 (by decide) (2 ^ 28) (by decide)).1 hpath
  have hne : (shamblesStructsInit 0x20000 (-1)).slot 0 ≠
      (shamblesStructsInit 0x20000 (-1)).slot (2 ^ 28) := by decide
  exact hne hslot

end Geometry

end Structures
end Shambles
