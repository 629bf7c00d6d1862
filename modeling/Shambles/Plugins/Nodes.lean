import Shambles.Lib.AssocList
import Shambles.Structures.Chunks

/-!
# Nodes — what the two migration plugins share

Both `lru.c` and `window.c` attach one list node to every chunk of a region and tag it with the
memory tier the chunk is on.
-/

namespace Shambles
namespace Plugins

open Structures

inductive MemLoc
  | fast
  | slow
  deriving DecidableEq, Repr

/-- The node `nodes + index` of the region at `region`. -/
structure NodePtr where
  region : RegionPtr
  index : Nat
  deriving DecidableEq, Repr

/-- What a node's `chunk` pointer gives access to: its own value and the chunk behind it. -/
structure ChunkRef where
  ptr : Nat
  chunk : ShamblesChunk
  deriving DecidableEq, Repr

/-- The nodes of a region, in the order of its chunks. -/
def nodesOf (p : RegionPtr) (region : ShamblesRegion) : List NodePtr :=
  (List.range region.nChunks).map (NodePtr.mk p)

theorem mem_nodesOf {p : RegionPtr} {region : ShamblesRegion} {n : NodePtr} :
    n ∈ nodesOf p region ↔ n.region = p ∧ n.index < region.nChunks := by
  rcases n with ⟨q, i⟩
  simp only [nodesOf, List.mem_map, List.mem_range, NodePtr.mk.injEq]
  constructor
  · rintro ⟨j, hj, rfl, rfl⟩
    exact ⟨rfl, hj⟩
  · rintro ⟨rfl, hi⟩
    exact ⟨i, hi, rfl, rfl⟩

theorem nodup_nodesOf (p : RegionPtr) (region : ShamblesRegion) : (nodesOf p region).Nodup := by
  refine List.Nodup.map ?_ List.nodup_range
  intro i j hij
  simpa using hij

/-! ## Events

Both plugins see the same callbacks.  `addRegion` hands over a new region, `getRegion` and
`getChunkInfo` name a live one or answer NULL.
-/

inductive Event
  | alloc (p : RegionPtr) (region : ShamblesRegion)
  | free (p : RegionPtr)
  | sample (addr : Nat) (chunk : Option NodePtr)
  deriving DecidableEq, Repr

/-- The live regions, as `structures.c` keeps them for both plugins. -/
abbrev RegionMap : Type :=
  List (RegionPtr × ShamblesRegion)

/-- The nodes of all live regions. -/
def liveNodes (regions : RegionMap) : List NodePtr :=
  regions.flatMap fun r => nodesOf r.1 r.2

/-- `node` belongs to a live region. -/
def LiveNode (regions : RegionMap) (node : NodePtr) : Prop :=
  ∃ region, regions.lookup node.region = some region ∧ node.index < region.nChunks

instance (regions : RegionMap) (node : NodePtr) : Decidable (LiveNode regions node) :=
  match h : regions.lookup node.region with
  | some region =>
      decidable_of_iff (node.index < region.nChunks)
        ⟨fun hi => ⟨region, h, hi⟩, fun ⟨_, hr, hi⟩ => Option.some.inj (h.symm.trans hr) ▸ hi⟩
  | none => isFalse fun ⟨_, hr, _⟩ => nomatch h.symm.trans hr

theorem LiveNode.mem_liveNodes {regions : RegionMap} {node : NodePtr}
    (h : LiveNode regions node) : node ∈ liveNodes regions := by
  rcases h with ⟨region, hlookup, hindex⟩
  refine List.mem_flatMap.2 ⟨(node.region, region), AssocList.mem_of_lookup hlookup, ?_⟩
  exact mem_nodesOf.2 ⟨rfl, hindex⟩

/-- A new region comes at a fresh address and has a chunk; `getRegion` and `getChunkInfo` answer
with live regions only. -/
def Enabled (regions : RegionMap) : Event → Prop
  | .alloc p region => regions.lookup p = none ∧ region.chunks ≠ []
  | .free p => regions.lookup p ≠ none
  | .sample _ none => True
  | .sample _ (some node) => LiveNode regions node

instance (regions : RegionMap) : (e : Event) → Decidable (Enabled regions e)
  | .alloc p region =>
      inferInstanceAs (Decidable (regions.lookup p = none ∧ region.chunks ≠ []))
  | .free p => inferInstanceAs (Decidable (regions.lookup p ≠ none))
  | .sample _ none => isTrue trivial
  | .sample _ (some node) => inferInstanceAs (Decidable (LiveNode regions node))

/-! ## Integers -/

/-- The conversion of `unsigned long` to `int`. -/
def toInt (n : Nat) : Int :=
  let m : Nat := n % 2 ^ 32
  if m < 2 ^ 31 then (m : Int) else (m : Int) - 2 ^ 32

theorem toInt_of_le {n : Nat} (h : n ≤ INT_MAX) : toInt n = n := by
  have hlt : n < 2 ^ 31 := by
    unfold INT_MAX at h
    omega
  have hmod : n % 2 ^ 32 = n := Nat.mod_eq_of_lt (by omega)
  simp only [toInt, hmod, hlt, if_true]

end Plugins
end Shambles
