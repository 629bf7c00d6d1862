import Shambles.Lib.Runs
import Shambles.Structures.Chunks
import Shambles.Structures.Geometry

/-!
# RegionTree — the region map of `structures.c`

The map from addresses to tracked regions is a radix tree over slot numbers.  A slot record has two
halves: `high` belongs to a region that covers the end of the slot, `low` to one that covers its
beginning.  A region registers in three phases: in the slot of an unaligned start (`head`), in the
slots it fills (`full`) and in the slot behind them (`tail`).

The three walks of the source (registration, deletion, lookup) recompute mask and shift level by
level; each is the walk of the radix tree library along `Geometry.path`.  The counters are
`uint64_t` in the source and natural numbers here.  `root` is an array without an end: that it is
one entry long is a matter of the geometry (`Geometry.Regular.rootIndex_eq_zero`).
-/

namespace Shambles
namespace Structures

open RadixTree

/-- `NULL` is 0 for the two bounds and `none` for the two regions. -/
@[ext] structure RegionNode where
  lowAddr : Nat
  highAddr : Nat
  lowReg : Option RegionPtr
  highReg : Option RegionPtr
  deriving DecidableEq, Repr

namespace RegionNode

/-- What `plugin_calloc` leaves. -/
def zero : RegionNode :=
  ⟨0, 0, none, none⟩

end RegionNode

/-- The part of a region a slot holds. -/
inductive Phase
  | head
  | full
  | tail
  deriving DecidableEq, Repr

namespace Phase

/-- `flag & 1` -/
def high : Phase → Bool
  | .head => true
  | .full => true
  | .tail => false

/-- `flag & 2` -/
def low : Phase → Bool
  | .head => false
  | .full => true
  | .tail => true

end Phase

/-- The assignments to `rn` when the region `reg`, from `addr` to `end`, registers. -/
def setFields (phase : Phase) (reg : RegionPtr) (addr endAddr : Nat) (rn : RegionNode) :
    RegionNode :=
  { highAddr := if phase.high then addr else rn.highAddr
    highReg := if phase.high then some reg else rn.highReg
    lowAddr := if phase.low then endAddr else rn.lowAddr
    lowReg := if phase.low then some reg else rn.lowReg }

/-- The assignments to `rn` in `recursiveDelete`. -/
def clearFields (phase : Phase) (rn : RegionNode) : RegionNode :=
  { highAddr := if phase.high then 0 else rn.highAddr
    highReg := if phase.high then none else rn.highReg
    lowAddr := if phase.low then 0 else rn.lowAddr
    lowReg := if phase.low then none else rn.lowReg }

/-! ### The two halves of a record -/

inductive Half
  | high
  | low
  deriving DecidableEq, Repr

namespace Half

/-- The region named in this half of a record, and the bound stored with it. -/
def read : Half → RegionNode → Option RegionPtr × Nat
  | .high, rn => (rn.highReg, rn.highAddr)
  | .low, rn => (rn.lowReg, rn.lowAddr)

/-- Does a registration of this phase write the half? -/
def writes : Half → Phase → Bool
  | .high, phase => phase.high
  | .low, phase => phase.low

/-- The end of a region that is stored in this half. -/
def pick : Half → Nat → Nat → Nat
  | .high, addr, _ => addr
  | .low, _, endAddr => endAddr

variable (half : Half) (phase : Phase) (reg : RegionPtr) (addr endAddr : Nat) (rn : RegionNode)

@[simp] theorem read_zero : half.read RegionNode.zero = (none, 0) := by
  cases half with
  | high => rfl
  | low => rfl

theorem read_setFields : half.read (setFields phase reg addr endAddr rn) =
    if half.writes phase then (some reg, half.pick addr endAddr) else half.read rn := by
  cases half with
  | high => cases phase <;> rfl
  | low => cases phase <;> rfl

theorem read_clearFields :
    half.read (clearFields phase rn) = if half.writes phase then (none, 0) else half.read rn := by
  cases half with
  | high => cases phase <;> rfl
  | low => cases phase <;> rfl

/-- A record is its two halves. -/
theorem ext {rn rn' : RegionNode} (h : ∀ half : Half, half.read rn = half.read rn') : rn = rn' := by
  have hhigh := Prod.mk.inj (h .high)
  have hlow := Prod.mk.inj (h .low)
  exact RegionNode.ext hlow.2 hhigh.2 hlow.1 hhigh.1

end Half

/-! ## The walks -/

/-- The loop of a registration below an entry of `root`. -/
def registerFrom (leaf addr0 : Nat) (f : RegionNode → RegionNode) :
    (depth mask shift : Nat) → Tree RegionNode depth → Tree RegionNode depth
  | 0, _, _, nl => Node.visit RegionNode.zero leaf f nl
  | depth + 1, mask, shift, nl =>
      Node.visit (Tree.empty depth) (shr64 (addr0 &&& mask) shift)
        (registerFrom leaf addr0 f depth (mask >>> nonLeafShift) (sub64 shift nonLeafShift)) nl

def recursiveDelete (leaf addr : Nat) (flag : Phase) :
    (depth mask shift : Nat) → Tree RegionNode depth → Option (Tree RegionNode depth)
  -- The reference count is decremented behind the assignments, at every level.
  | 0, _, _, nl => Node.leave leaf (fun rn => some (clearFields flag rn)) nl
  | depth + 1, mask, shift, nl =>
      Node.leave (shr64 (addr &&& mask) shift)
        (recursiveDelete leaf addr flag depth (mask >>> nonLeafShift) (sub64 shift nonLeafShift)) nl

/-- The loop of `getRegion`; `none` at a NULL array. -/
def findFrom (leaf addr : Nat) :
    (depth mask shift : Nat) → Tree RegionNode depth → Option RegionNode
  | 0, _, _, nl => Option.map (fun a => a leaf) (Node.arr nl)
  | depth + 1, mask, shift, nl =>
      Option.bind (Node.arr nl) fun a =>
        findFrom leaf addr depth (mask >>> nonLeafShift) (sub64 shift nonLeafShift)
          (a (shr64 (addr &&& mask) shift))

theorem registerFrom_eq (leaf addr0 : Nat) (f : RegionNode → RegionNode) :
    ∀ depth mask shift (nl : Tree RegionNode depth), registerFrom leaf addr0 f depth mask shift nl =
      Tree.visit RegionNode.zero f depth (Geometry.innerPath leaf addr0 depth mask shift) nl := by
  intro depth
  induction depth with
  | zero =>
      intro mask shift nl
      rfl
  | succ depth ih =>
      intro mask shift nl
      have hrest : registerFrom leaf addr0 f depth (mask >>> nonLeafShift)
          (sub64 shift nonLeafShift) = Tree.visit RegionNode.zero f depth
            (Geometry.innerPath leaf addr0 depth (mask >>> nonLeafShift)
              (sub64 shift nonLeafShift)) := funext fun t => ih _ _ t
      simp only [registerFrom, hrest, Geometry.innerPath, Tree.visit]

theorem recursiveDelete_eq (leaf addr : Nat) (flag : Phase) :
    ∀ depth mask shift (nl : Tree RegionNode depth),
      recursiveDelete leaf addr flag depth mask shift nl =
        Tree.leave (clearFields flag) depth (Geometry.innerPath leaf addr depth mask shift) nl := by
  intro depth
  induction depth with
  | zero =>
      intro mask shift nl
      rfl
  | succ depth ih =>
      intro mask shift nl
      have hrest : recursiveDelete leaf addr flag depth (mask >>> nonLeafShift)
          (sub64 shift nonLeafShift) = Tree.leave (clearFields flag) depth
            (Geometry.innerPath leaf addr depth (mask >>> nonLeafShift)
              (sub64 shift nonLeafShift)) := funext fun t => ih _ _ t
      simp only [recursiveDelete, hrest, Geometry.innerPath, Tree.leave]

theorem findFrom_eq (leaf addr : Nat) :
    ∀ depth mask shift (nl : Tree RegionNode depth), findFrom leaf addr depth mask shift nl =
      Tree.find depth (Geometry.innerPath leaf addr depth mask shift) nl := by
  intro depth
  induction depth with
  | zero =>
      intro mask shift nl
      rfl
  | succ depth ih =>
      intro mask shift nl
      simp only [findFrom, ih, Geometry.innerPath, Tree.find]

/-- The array `root`. -/
@[reducible] def Root (g : Geometry) : Type :=
  Forest RegionNode g.nonLeafNodesDepth

section Root

variable (g : Geometry)

/-- One slot of a region is registered. -/
def registerSlot (root : Root g) (addr0 : Nat) (f : RegionNode → RegionNode) : Root g :=
  Function.update root (g.rootIndex addr0)
    (registerFrom (g.leafIndex addr0) addr0 f g.nonLeafNodesDepth
      (g.nonLeafNodeMask0 >>> nonLeafShift) (sub64 g.nonLeafShift0 nonLeafShift)
      (root (g.rootIndex addr0)))

/-- The call of `recursiveDelete` for one slot. -/
def deleteSlot (root : Root g) (addr0 : Nat) (flag : Phase) : Option (Root g) :=
  (recursiveDelete (g.leafIndex addr0) addr0 flag g.nonLeafNodesDepth
    (g.nonLeafNodeMask0 >>> nonLeafShift) (sub64 g.nonLeafShift0 nonLeafShift)
    (root (g.rootIndex addr0))).map fun nl => Function.update root (g.rootIndex addr0) nl

def findSlot (root : Root g) (addr : Nat) : Option RegionNode :=
  findFrom (g.leafIndex addr) addr g.nonLeafNodesDepth (g.nonLeafNodeMask0 >>> nonLeafShift)
    (sub64 g.nonLeafShift0 nonLeafShift) (root (g.rootIndex addr))

theorem registerSlot_eq (root : Root g) (addr0 : Nat) (f : RegionNode → RegionNode) :
    registerSlot g root addr0 f = Forest.visit RegionNode.zero f (g.path addr0) root := by
  unfold registerSlot
  rw [registerFrom_eq]
  rfl

theorem deleteSlot_eq (root : Root g) (addr0 : Nat) (flag : Phase) :
    deleteSlot g root addr0 flag = Forest.leave (clearFields flag) (g.path addr0) root := by
  unfold deleteSlot
  rw [recursiveDelete_eq]
  rfl

theorem findSlot_eq (root : Root g) (addr : Nat) :
    findSlot g root addr = Forest.find (g.path addr) root := by
  unfold findSlot
  rw [findFrom_eq]
  rfl

/-! ## The slots of a region -/

/-- `~x` -/
def not64 (x : Nat) : Nat :=
  2 ^ 64 - 1 - x

/-- `while(addr0 < lim)` with steps of one slot: the values of `addr0` at which the body runs. -/
def fullSlots (step lim addr0 : Nat) : List Nat :=
  List.range' addr0 ((lim - addr0 + step - 1) / step) step

/-- The slots in which a region from `addr` to `endAddr` registers, in order; `addRegion`,
`addRegionChunks` and `deleteRegion` go through the same three phases. -/
def slots (addr endAddr : Nat) : List (Nat × Phase) :=
  let low := shl64 1 g.regionShift - 1
  -- `addr0` moves to the next slot also when no head has been registered.
  let addr0 := wrap64 ((addr &&& not64 low) + shl64 1 g.regionShift)
  let full := fullSlots (shl64 1 g.regionShift) (endAddr &&& not64 low) addr0
  let addr1 := addr0 + full.length * shl64 1 g.regionShift
  (if addr &&& low ≠ 0 then [(addr, Phase.head)] else []) ++
    full.map (fun a => (a, Phase.full)) ++
    -- The last test is `!=`: an `end` in front of `addr0` registers a tail as well.
    if addr1 ≠ endAddr then [(addr1, Phase.tail)] else []

/-! ## Operations -/

/-- The part `addRegion` and `addRegionChunks` share: the region is entered at the slots between
`addr` and `endAddr`. -/
def registerRegion (root : Root g) (reg : RegionPtr) (addr endAddr : Nat) : Root g :=
  (slots g addr endAddr).foldl
    (fun root slot => registerSlot g root slot.1 (setFields slot.2 reg addr endAddr)) root

def addRegion (chunkSize : Nat) (root : Root g) (output chunksPtr addr size : Nat) :
    ShamblesRegion × Root g :=
  (⟨addr, chunkTable chunkSize addr size, chunksPtr⟩,
    registerRegion g root output addr (wrap64 (addr + size)))

def addRegionChunks (root : Root g) (output chunksPtr addr size : Nat) (chunkSizes : List Nat) :
    ShamblesRegion × Root g :=
  (⟨addr, chunkTableOf addr chunkSizes, chunksPtr⟩,
    registerRegion g root output addr (wrap64 (addr + size)))

/-- The extent `deleteRegion` reads off the chunk table. -/
def extent (region : ShamblesRegion) : Option (Nat × Nat) :=
  match region.chunks.head?, region.chunks.getLast? with
  -- the start of the first chunk and the end of the last one
  | some first, some last => some (first.start, wrap64 (last.start + last.size))
  | _, _ => none

def deleteRegion (root : Root g) (region : ShamblesRegion) : Option (Root g) :=
  match extent region with
  | some (addr, endAddr) =>
      (slots g addr endAddr).foldlM (fun root slot => deleteSlot g root slot.1 slot.2) root
  | none => none

def getRegion (root : Root g) (addr : Nat) : Option RegionPtr :=
  match findSlot g root addr with
  | none => none
  | some rn =>
      -- `highAddr` is NULL in a slot no region starts in, and then every address passes.
      if rn.highAddr ≤ addr then
        rn.highReg
      else if addr < rn.lowAddr then
        rn.lowReg
      else
        none

end Root

/-! ## Extents

`deleteRegion` recovers from the chunk table what `addRegion` was called with. -/

theorem extent_eq {region : ShamblesRegion} {first last : ShamblesChunk}
    (hfirst : region.chunks.head? = some first) (hlast : region.chunks.getLast? = some last) :
    extent region = some (first.start, wrap64 (last.start + last.size)) := by
  simp [extent, hfirst, hlast]

theorem extent_chunkTable {chunkSize addr size : Nat} (chunksPtr : Nat) (hchunk : 0 < chunkSize)
    (hsize : 0 < size) (hend : addr + size ≤ 2 ^ 64) :
    extent ⟨addr, chunkTable chunkSize addr size, chunksPtr⟩ =
      some (addr, wrap64 (addr + size)) := by
  have htiles : Tiles addr (chunkTable chunkSize addr size) := chunkTable_tiles hchunk hend
  have hsum := chunkTable_size chunkSize addr size
  cases htable : chunkTable chunkSize addr size with
  | nil => exact absurd htable (chunkTable_ne_nil chunkSize addr hsize)
  | cons c cs =>
      rw [htable] at htiles hsum
      have hlast := List.getLast?_eq_some_getLast (List.cons_ne_nil c cs)
      have hend' := htiles.getLast_end _ hlast
      rw [hsum] at hend'
      rw [extent_eq rfl hlast, hend', htiles.1]

theorem extent_chunkTableOf {addr : Nat} {chunkSizes : List Nat} (chunksPtr : Nat)
    (hne : chunkSizes ≠ []) :
    extent ⟨addr, chunkTableOf addr chunkSizes, chunksPtr⟩ =
      some (addr, wrap64 (addr + chunkSizes.sum)) := by
  cases chunkSizes with
  | nil => exact absurd rfl hne
  | cons size sizes =>
      have hne' : chunkTableOf addr (size :: sizes) ≠ [] := by simp [chunkTableOf]
      have hlast := List.getLast?_eq_some_getLast hne'
      rw [extent_eq rfl hlast, chunkTableOf_getLast hlast]

/-! ## Events -/

structure TreeState (g : Geometry) where
  root : Root g
  /-- The regions added and not deleted. -/
  regions : List (RegionPtr × ShamblesRegion)

/-- `output` and `chunksPtr` are the addresses `plugin_malloc` returned. -/
inductive TreeEvent
  | addRegion (output chunksPtr addr size : Nat)
  | addRegionChunks (output chunksPtr addr size : Nat) (chunkSizes : List Nat)
  | deleteRegion (region : RegionPtr)
  deriving DecidableEq, Repr

/-- The bytes `[addr, addr + size)` an event adds. -/
def TreeEvent.range : TreeEvent → Option (Nat × Nat)
  | .addRegion _ _ addr size => some (addr, size)
  | .addRegionChunks _ _ addr size _ => some (addr, size)
  | .deleteRegion _ => none

namespace TreeState

variable {g : Geometry}

/-- The state `shamblesStructsInit` leaves. -/
def init (g : Geometry) : TreeState g :=
  ⟨Forest.empty _, []⟩

def add (s : TreeState g) (output : RegionPtr) (r : ShamblesRegion × Root g) : TreeState g :=
  ⟨r.2, (output, r.1) :: s.regions⟩

def step (chunkSize : Nat) (s : TreeState g) : TreeEvent → Option (TreeState g)
  | .addRegion output chunksPtr addr size =>
      some (s.add output (addRegion g chunkSize s.root output chunksPtr addr size))
  | .addRegionChunks output chunksPtr addr size chunkSizes =>
      some (s.add output (addRegionChunks g s.root output chunksPtr addr size chunkSizes))
  | .deleteRegion p =>
      match s.regions.lookup p with
      | some region =>
          (deleteRegion g s.root region).map fun root =>
            ⟨root, s.regions.filter fun r => r.1 ≠ p⟩
      | none => none

/-- New regions come at a fresh address, are not smaller than the threshold and do not wrap the
address space; their number of chunks fits the `int` of the loops; the sizes given to
`addRegionChunks` add up; only live regions are deleted. -/
def Enabled (sizeThresshold chunkSize : Nat) (s : TreeState g) : TreeEvent → Prop
  | .addRegion output _ addr size =>
      s.regions.lookup output = none ∧ sizeThresshold ≤ size ∧ addr + size ≤ 2 ^ 64 ∧
        0 < chunkSize ∧ (size + chunkSize - 1) / chunkSize ≤ INT_MAX
  | .addRegionChunks output _ addr size chunkSizes =>
      s.regions.lookup output = none ∧ sizeThresshold ≤ size ∧ addr + size ≤ 2 ^ 64 ∧
        chunkSizes ≠ [] ∧ chunkSizes.sum = size ∧ chunkSizes.length ≤ INT_MAX
  | .deleteRegion p => s.regions.lookup p ≠ none

instance (sizeThresshold chunkSize : Nat) (s : TreeState g) :
    (e : TreeEvent) → Decidable (Enabled sizeThresshold chunkSize s e)
  | .addRegion _ _ _ _ => inferInstanceAs (Decidable (_ ∧ _))
  | .addRegionChunks _ _ _ _ _ => inferInstanceAs (Decidable (_ ∧ _))
  | .deleteRegion p => inferInstanceAs (Decidable (s.regions.lookup p ≠ none))

/-- The region map with the geometry of its threshold. -/
def system (g : Geometry) (sizeThresshold chunkSize : Nat) : System (TreeState g) TreeEvent :=
  { enabled := Enabled sizeThresshold chunkSize
    step := step chunkSize }

instance (sizeThresshold chunkSize : Nat) (s : TreeState g) (e : TreeEvent) :
    Decidable ((system g sizeThresshold chunkSize).enabled s e) :=
  inferInstanceAs (Decidable (Enabled sizeThresshold chunkSize s e))

variable {sizeThresshold chunkSize : Nat} {s s' : TreeState g}

/-- What an event does: an addition enters a region at the slots between its two ends, whichever of
the two functions cuts it; a deletion takes a live region out. -/
theorem step_cases (hpos : 1 ≤ sizeThresshold) {e : TreeEvent}
    (he : Enabled sizeThresshold chunkSize s e) (hs' : step chunkSize s e = some s') :
    (∃ p region, s.regions.lookup p = none ∧ e.range = some (region.start, region.size) ∧
        sizeThresshold ≤ region.size ∧ region.start + region.size ≤ 2 ^ 64 ∧
        extent region = some (region.start, wrap64 (region.start + region.size)) ∧
        s' = s.add p (region, registerRegion g s.root p region.start
          (wrap64 (region.start + region.size)))) ∨
      ∃ p region root', e = .deleteRegion p ∧ s.regions.lookup p = some region ∧
        deleteRegion g s.root region = some root' ∧
        s' = ⟨root', s.regions.filter fun r => r.1 ≠ p⟩ := by
  cases e with
  | addRegion p chunksPtr addr size =>
      rcases he with ⟨hfresh, hsize, hend, hchunk, _⟩
      have htotal : ShamblesRegion.size ⟨addr, chunkTable chunkSize addr size, chunksPtr⟩ = size :=
        chunkTable_size chunkSize addr size
      refine Or.inl ⟨p, ⟨addr, chunkTable chunkSize addr size, chunksPtr⟩, hfresh, ?_, ?_, ?_, ?_, ?_⟩
      · rw [htotal]
        rfl
      · rwa [htotal]
      · rwa [htotal]
      · rw [htotal]
        exact extent_chunkTable chunksPtr hchunk (by omega) hend
      · rw [htotal]
        exact (Option.some.inj hs').symm
  | addRegionChunks p chunksPtr addr size chunkSizes =>
      rcases he with ⟨hfresh, hsize, hend, hne, hsum, _⟩
      have htotal : ShamblesRegion.size ⟨addr, chunkTableOf addr chunkSizes, chunksPtr⟩ = size :=
        (chunkTableOf_size addr chunkSizes).trans hsum
      refine Or.inl ⟨p, ⟨addr, chunkTableOf addr chunkSizes, chunksPtr⟩, hfresh, ?_, ?_, ?_, ?_, ?_⟩
      · rw [htotal]
        rfl
      · rwa [htotal]
      · rwa [htotal]
      · rw [htotal, ← hsum]
        exact extent_chunkTableOf chunksPtr hne
      · rw [htotal]
        exact (Option.some.inj hs').symm
  | deleteRegion p =>
      rcases Option.ne_none_iff_exists'.1 he with ⟨region, hregion⟩
      rw [step, hregion] at hs'
      rcases Option.map_eq_some_iff.1 hs' with ⟨root', hroot', heq⟩
      exact Or.inr ⟨p, region, root', rfl, hregion, hroot', heq.symm⟩

end TreeState

end Structures
end Shambles
