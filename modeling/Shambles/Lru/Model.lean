import Shambles.Lib.Runs
import Shambles.Plugins.Lists
import Shambles.Plugins.Migration
import Shambles.Plugins.Nodes

/-!
# Lru — the LRU plugin

The state and the callbacks of `lru.c`.  An event of the plugin is one step: callbacks do not
overlap here.  In the source an allocation and a sample hold `lruLock` throughout, but a release
calls `getRegion` and `unbind` before it takes the lock.

A node `nodes + i` of a region is named by the region and the index `i`; its fields `chunk`, `loc`,
`next` and `prev` are kept as functions of that name.

The region map (`structures.c`) enters through its answers: `addRegion` hands over a new region,
`getRegion` and `getChunkInfo` name a live one or answer NULL.
-/

namespace Shambles
namespace Lru

open CircularList Structures Plugins

structure State where
  freeFastChunks : Int
  links : Links NodePtr
  loc : NodePtr → MemLoc
  chunk : NodePtr → ChunkRef
  mru : Option NodePtr
  lru : Option NodePtr
  regions : List (RegionPtr × ShamblesRegion)
  trace : List Effect

namespace State

def emit (s : State) (es : List Effect) : State :=
  { s with trace := s.trace ++ es }

def dqMru (s : State) (node : NodePtr) : State :=
  let r := dq s.links s.mru node
  { s with links := r.1, mru := r.2 }

def dqLru (s : State) (node : NodePtr) : State :=
  let r := dq s.links s.lru node
  { s with links := r.1, lru := r.2 }

def pushMru (s : State) (node : NodePtr) : State :=
  let r := push s.links s.mru node
  { s with links := r.1, mru := r.2 }

def pushLru (s : State) (node : NodePtr) : State :=
  let r := push s.links s.lru node
  { s with links := r.1, lru := r.2 }

def enqMru (s : State) (node : NodePtr) : State :=
  let r := enq s.links s.mru node
  { s with links := r.1, mru := r.2 }

def enqLru (s : State) (node : NodePtr) : State :=
  let r := enq s.links s.lru node
  { s with links := r.1, lru := r.2 }

def setLoc (s : State) (node : NodePtr) (loc : MemLoc) : State :=
  { s with loc := Function.update s.loc node loc }

end State

/-- The state `lruInit` leaves behind: no list, all of the fast memory free. -/
def lruInit (fastChunks : Nat) : State :=
  { freeFastChunks := toInt fastChunks
    links := ⟨id, id⟩
    loc := fun _ => .fast
    chunk := fun _ => ⟨0, ⟨0, 0⟩⟩
    mru := none
    lru := none
    regions := []
    trace := [] }

/-! ## `allocCallback`, allocation -/

/-- The first loop: every node learns its chunk. -/
def initNodes (s : State) (p : RegionPtr) (region : ShamblesRegion) : State :=
  { s with
    chunk := fun n =>
      match if n.region = p then region.chunks[n.index]? else none with
      | some c => ⟨region.chunksPtr + sizeofChunk * n.index, c⟩
      | none => s.chunk n }

/-- `while(freeFastChunks && i < region->nChunks)`; returns the nodes that are left. -/
def placeFast (s : State) : List NodePtr → State × List NodePtr
  | [] => (s, [])
  | n :: rest =>
      if s.freeFastChunks ≠ 0 then
        let s₁ := ((s.setLoc n .fast).enqMru n).emit (bindFastAlloc (s.chunk n).chunk)
        placeFast { s₁ with freeFastChunks := s₁.freeFastChunks - 1 } rest
      else
        (s, n :: rest)

/-- `while(i < region->nChunks)` -/
def placeSlow (s : State) : List NodePtr → State
  | [] => s
  | n :: rest =>
      placeSlow (((s.setLoc n .slow).enqLru n).emit (bindSlowAlloc (s.chunk n).chunk)) rest

/-- The branch `ALLOC_EVENT_ALLOC`, from the region that `addRegion` returned at `p`. -/
def allocRegion (s : State) (p : RegionPtr) (region : ShamblesRegion) : State :=
  let s₁ := initNodes { s with regions := (p, region) :: s.regions } p region
  let r := placeFast s₁ (nodesOf p region)
  placeSlow r.1 r.2

/-! ## `allocCallback`, release -/

/-- The body of the loop over the nodes of the released region. -/
def freeChunk (region : ShamblesRegion) (s : State) (node : NodePtr) : State :=
  if s.loc node = .slow then
    s.dqLru node
  else
    let s₁ := s.dqMru node
    match s₁.lru with
    -- Only with no slow chunk left does the place become free.
    | none => { s₁ with freeFastChunks := s₁.freeFastChunks + 1 }
    | some promoted =>
        let s₂ := (s₁.dqLru promoted).setLoc promoted .fast
        -- "else it has been unbound anyway": the test compares positions of records in memory.
        let s₃ :=
          if (s₂.chunk promoted).ptr > region.chunksPtr + sizeofChunk * region.nChunks then
            s₂.emit (bindFast (s₂.chunk promoted).chunk)
          else
            s₂
        s₃.enqMru promoted

/-- The branch `ALLOC_EVENT_FREE`, for the region `getRegion` returned. -/
def freeRegion (s : State) (p : RegionPtr) (region : ShamblesRegion) : State :=
  -- `unbind` comes first, so a chunk promoted by the loop is bound after it.
  let s₁ := s.emit (unbind region)
  let s₂ := (nodesOf p region).foldl (freeChunk region) s₁
  { s₂ with regions := s₂.regions.filter (fun r => r.1 ≠ p) }

/-! ## `handleSample` -/

/-- A hit: the node moves to the front of `mru`. -/
def sampleFast (s : State) (addr : Nat) (node : NodePtr) : State :=
  ((s.dqMru node).emit [.logSample addr ⟨true, true⟩]).pushMru node

/-- A miss, once `node` has left `lru` and `victim` has been read from `mru->prev`. -/
def sampleSlow (s : State) (addr : Nat) (node victim : NodePtr) : State :=
  let s₁ := ((s.dqMru victim).pushLru victim).emit [.logSample addr ⟨true, false⟩]
  let s₂ := s₁.emit (swap (s₁.chunk node).chunk (s₁.chunk victim).chunk)
  ((s₂.setLoc node .fast).setLoc victim .slow).pushMru node

/-- `chunk` is the answer of `getChunkInfo(addr)`.  The only pointer that could be NULL where it is
dereferenced is the list head in `mru->prev`. -/
def handleSample (s : State) (addr : Nat) (chunk : Option NodePtr) : Option State :=
  match chunk with
  | some node =>
      if s.loc node = .fast then
        some (sampleFast s addr node)
      else
        let s₁ := s.dqLru node
        match s₁.mru with
        -- `victim = mru->prev` with no fast chunk
        | none => none
        | some head => some (sampleSlow s₁ addr node (s₁.links.prev head))
  | none => some (s.emit [.logSample addr ⟨false, false⟩])

/-! ## Events -/

def step (s : State) : Event → Option State
  | .alloc p region => some (allocRegion s p region)
  | .free p =>
      match s.regions.lookup p with
      | some region => some (freeRegion s p region)
      | none => none
  | .sample addr chunk => handleSample s addr chunk

def system : System State Event :=
  { enabled := fun s e => Enabled s.regions e
    step := step }

instance (s : State) (e : Event) : Decidable (system.enabled s e) :=
  inferInstanceAs (Decidable (Enabled s.regions e))

end Lru
end Shambles
