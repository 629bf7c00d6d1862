import Shambles.Lib.Runs
import Shambles.Plugins.Lists
import Shambles.Plugins.Migration
import Shambles.Plugins.Nodes

/-!
# Window — the sliding window plugin

The state and the callbacks of `window.c`.  A node counts how often its chunk occurs in the ring
`samples` of the last `windowSize` samples.  The fast and the slow list are kept in order of these
counts, and `tails[k]` points to the last node of count `k`.

All callbacks run under `winLock`, so an event is one step.  A chunk is named like its node, since
`privData` and `chunk` lead from one to the other.

Some branches dereference NULL or leave an array.  The functions are written for any monad that can
stop on such a `Fault`: as `Option` they just stop, which is what the steps of a run need, and as
`Except Fault` they say where.
-/

namespace Shambles
namespace Window

open CircularList Structures Plugins

/-! ## Faults -/

inductive Fault
  | null
  /-- `tails[i]` is not in the array. -/
  | tails (i : Nat)
  /-- `samples[i]` is not in the array. -/
  | samples (i : Nat)
  /-- `printf("%d\n", *((int *)NULL))` -/
  | crash
  deriving DecidableEq, Repr

class MonadFault (m : Type → Type) where
  fault {α : Type} : Fault → m α

export MonadFault (fault)

instance : MonadFault Option :=
  ⟨fun _ => none⟩

instance : MonadFault (Except Fault) :=
  ⟨Except.error⟩

variable {m : Type → Type} [Monad m] [MonadFault m]

/-- The value, or the fault of not having one. -/
def orFault {α : Type} (f : Fault) : Option α → m α
  | some a => pure a
  | none => fault f

@[simp] theorem orFault_option {α : Type} (f : Fault) (o : Option α) :
    (orFault f o : Option α) = o := by
  cases o <;> rfl

/-! ## State -/

structure State where
  freeFastChunks : Int
  links : Links NodePtr
  loc : NodePtr → MemLoc
  count : NodePtr → Nat
  chunk : NodePtr → ChunkRef
  fastList : Option NodePtr
  slowList : Option NodePtr
  samples : List (Option NodePtr)
  windowSize : Nat
  currentLoc : Nat
  tails : List (Option NodePtr)
  chunkSize : Nat
  regions : RegionMap
  trace : List Effect

namespace State

def emit (s : State) (es : List Effect) : State :=
  { s with trace := s.trace ++ es }

def dqFast (s : State) (node : NodePtr) : State :=
  let r := dq s.links s.fastList node
  { s with links := r.1, fastList := r.2 }

def dqSlow (s : State) (node : NodePtr) : State :=
  let r := dq s.links s.slowList node
  { s with links := r.1, slowList := r.2 }

def pushFast (s : State) (node : NodePtr) : State :=
  let r := push s.links s.fastList node
  { s with links := r.1, fastList := r.2 }

def pushSlow (s : State) (node : NodePtr) : State :=
  let r := push s.links s.slowList node
  { s with links := r.1, slowList := r.2 }

def enqFast (s : State) (node : NodePtr) : State :=
  let r := enq s.links s.fastList node
  { s with links := r.1, fastList := r.2 }

def enqSlow (s : State) (node : NodePtr) : State :=
  let r := enq s.links s.slowList node
  { s with links := r.1, slowList := r.2 }

def insert (s : State) (node after : NodePtr) : State :=
  { s with links := Plugins.insert s.links node after }

def move (s : State) (node after : NodePtr) : State :=
  { s with links := Plugins.move s.links node after }

def setLoc (s : State) (node : NodePtr) (loc : MemLoc) : State :=
  { s with loc := Function.update s.loc node loc }

def setCount (s : State) (node : NodePtr) (count : Nat) : State :=
  { s with count := Function.update s.count node count }

/-- `tails[k]` -/
def getTail (s : State) (k : Nat) : m (Option NodePtr) :=
  orFault (.tails k) s.tails[k]?

@[simp] theorem getTail_option (s : State) (k : Nat) :
    (s.getTail k : Option (Option NodePtr)) = s.tails[k]? :=
  orFault_option _ _

/-- `tails[k] = v` -/
def setTail (s : State) (k : Nat) (v : Option NodePtr) : m State :=
  if k < s.tails.length then pure { s with tails := s.tails.set k v } else fault (.tails k)

/-- `samples[currentLoc]` -/
def getSample (s : State) : m (Option NodePtr) :=
  orFault (.samples s.currentLoc) s.samples[s.currentLoc]?

@[simp] theorem getSample_option (s : State) :
    (s.getSample : Option (Option NodePtr)) = s.samples[s.currentLoc]? :=
  orFault_option _ _

/-- `samples[currentLoc] = chunk` -/
def setSample (s : State) (chunk : NodePtr) : m State :=
  if s.currentLoc < s.samples.length then
    pure { s with samples := s.samples.set s.currentLoc (some chunk) }
  else
    fault (.samples s.currentLoc)

/-- `currentLoc++; currentLoc %= windowSize;` -/
def advance (s : State) : State :=
  { s with currentLoc := (s.currentLoc + 1) % s.windowSize }

/-- `fastList->prev` -/
def fastTail (s : State) : Option NodePtr :=
  s.fastList.map s.links.prev

end State

/-- The state `windowInit` leaves behind for the configured number of fast chunks, chunk size and
window size. -/
def windowInit (fastChunks chunkSize windowSize : Nat) : State :=
  { freeFastChunks := toInt fastChunks
    links := ⟨id, id⟩
    loc := fun _ => .fast
    count := fun _ => 0
    chunk := fun _ => ⟨0, ⟨0, 0⟩⟩
    fastList := none
    slowList := none
    samples := List.replicate windowSize none
    windowSize := windowSize
    currentLoc := 0
    tails := List.replicate (windowSize + 1) none
    chunkSize := chunkSize
    regions := []
    trace := [] }

/-! ## `allocCallback`, allocation -/

/-- The first loop: every node learns its chunk and starts with count 0. -/
def initNodes (s : State) (p : RegionPtr) (region : ShamblesRegion) : State :=
  { s with
    chunk := fun n =>
      match if n.region = p then region.chunks[n.index]? else none with
      | some c => ⟨region.chunksPtr + sizeofChunk * n.index, c⟩
      | none => s.chunk n
    count := fun n => if n.region = p ∧ n.index < region.nChunks then 0 else s.count n }

/-- `while(freeFastChunks && i < region->nChunks)`; returns the nodes that are left. -/
def placeFast (s : State) : List NodePtr → State × List NodePtr
  | [] => (s, [])
  | n :: rest =>
      if s.freeFastChunks ≠ 0 then
        let s₁ := ((s.setLoc n .fast).enqFast n).emit (bindFastAlloc (s.chunk n).chunk)
        placeFast { s₁ with freeFastChunks := s₁.freeFastChunks - 1 } rest
      else
        (s, n :: rest)

/-- `while(i < region->nChunks)` -/
def placeSlow (s : State) : List NodePtr → State
  | [] => s
  | n :: rest =>
      placeSlow (((s.setLoc n .slow).enqSlow n).emit (bindSlowAlloc (s.chunk n).chunk)) rest

/-- The branch `ALLOC_EVENT_ALLOC`, from the region that `addRegion` returned at `p`. -/
def allocRegion (s : State) (p : RegionPtr) (region : ShamblesRegion) : m State :=
  let s₁ := initNodes { s with regions := (p, region) :: s.regions } p region
  let r := placeFast s₁ (nodesOf p region)
  -- The last node of the region is the last of all nodes with count 0.
  (placeSlow r.1 r.2).setTail 0 (some ⟨p, region.nChunks - 1⟩)

/-! ## Upkeep of `tails` -/

/-- `node->prev` if it has the count of `node`, NULL otherwise. -/
def prevInClass (s : State) (node : NodePtr) : Option NodePtr :=
  if s.count (s.links.prev node) = s.count node then some (s.links.prev node) else none

/-- The same, where a list with one element is told apart. -/
def otherPrevInClass (s : State) (node : NodePtr) : Option NodePtr :=
  if s.links.prev node = node then none else prevInClass s node

/-- The new last node of the class that `node`, its last node, is about to leave downwards.  In
front of the head of the slow list stands the tail of the fast one. -/
def tailBefore (s : State) (node : NodePtr) : m (Option NodePtr) :=
  match otherPrevInClass s node with
  | some p => pure (some p)
  | none =>
      if s.loc node = .slow then do
        let t ← orFault .null s.fastTail
        pure (if s.count t = s.count node then some t else none)
      else
        pure none

/-- `if(tails[node->count] == node) tails[node->count] = v;` -/
def replaceTail (s : State) (node : NodePtr) (v : m (Option NodePtr)) : m State := do
  let own ← s.getTail (s.count node)
  if own = some node then s.setTail (s.count node) (← v) else pure s

/-- The loop `for(; i < windowSize; i++) if(tails[i]) break;`, which has `steps` rounds left, and
the read of `tails[i]` behind it. -/
def searchTail (tails : List (Option NodePtr)) : (steps i : Nat) → m (Option NodePtr)
  | 0, i => orFault (.tails i) tails[i]?
  | steps + 1, i => do
      match ← orFault (.tails i) tails[i]? with
      | none => searchTail tails steps (i + 1)
      | some t => pure (some t)

/-! ## `handleSample`, demotion -/

/-- Takes `node` out of its list, which may change the head, and puts it behind `after`. -/
def relink (s : State) (node after : NodePtr) : State :=
  if s.slowList = some node then (s.dqSlow node).insert node after
  else if s.fastList = some node then (s.dqFast node).insert node after
  else s.move node after

/-- The branch "no migration". -/
def demoteInPlace (s : State) (node : NodePtr) : m State := do
  let c := s.count node
  let below ← s.getTail (c - 1)
  let own ← s.getTail c
  let s₁ ←
    match below with
    | none =>
        -- The last node of its class stays where it is and starts the class below.
        if own = some node then do s.setTail c (← tailBefore s node)
        else do pure (relink s node (← orFault .null own))
    | some t => do
        -- The class below has a last node: `node` leaves its own class and goes behind it.
        let s₁ ← replaceTail s node (tailBefore s node)
        pure (relink s₁ node t)
  s₁.setTail (c - 1) (some node)

/-- Puts `node` behind `after` if that one is slow, else in front of the slow list. -/
def insertSlow (s : State) (node after : NodePtr) : State :=
  if s.loc after = .slow then s.insert node after else s.pushSlow node

/-- The head of the slow list goes to the end of the fast one, which `node` leaves. -/
def demoteExchange (s : State) (node head : NodePtr) : State :=
  let s₁ := s.emit (swap (s.chunk head).chunk (s.chunk node).chunk)
  let s₂ := ((s₁.dqSlow head).enqFast head).setLoc head .fast
  (s₂.dqFast node).setLoc node .slow

/-- The branch "migration": the head of the slow list changes places with `node`. -/
def demoteSwap (s : State) (node head : NodePtr) : m State := do
  let c := s.count node
  let s₁ := demoteExchange s node head
  let s₂ ← replaceTail s₁ node (pure (prevInClass s₁ node))
  let below ← s₂.getTail (c - 1)
  let s₃ ←
    match below with
    | none => do
        -- `tails[node->count]->loc`, without a test for NULL
        let own ← s₂.getTail c
        pure (insertSlow s₂ node (← orFault .null own))
    | some t => pure (insertSlow s₂ node t)
  s₃.setTail (c - 1) (some node)

/-- The chunk in `samples[currentLoc]` leaves the ring.  A count of zero is answered with a
deliberate crash. -/
def demote (s : State) (node : NodePtr) : m State :=
  let c := s.count node
  if c = 0 then fault .crash
  else do
    let s₁ ←
      match s.loc node, s.slowList with
      | .fast, some head =>
          -- A slow chunk with at least the new count of `node` takes its place.
          if s.count head < c - 1 then demoteInPlace s node else demoteSwap s node head
      | _, _ => demoteInPlace s node
    pure (s₁.setCount node (c - 1))

/-! ## `handleSample`, promotion -/

/-- Puts `node` behind `after` in its own list; a slow node whose new place is behind the fast list
goes to the front of the slow one. -/
def promoteBehind (s : State) (node after : NodePtr) : State :=
  if s.loc after = s.loc node then s.move node after else (s.dqSlow node).pushSlow node

/-- The branch "no migration". -/
def promoteInPlace (s : State) (node : NodePtr) : m State := do
  let c := s.count node
  let next ← s.getTail (c + 1)
  let s₂ ←
    match next with
    | none => do
        let s₁ ← replaceTail s node (pure (otherPrevInClass s node))
        -- `i` starts at `node->count + 2`, which may already be `windowSize + 1`.
        let found ← searchTail s₁.tails (s₁.windowSize - (c + 2)) (c + 2)
        match found with
        | some t => pure (promoteBehind s₁ node t)
        | none => pure ((s₁.dqFast node).pushFast node)
    | some t => do
        -- Unlike above, a list with one element is not told apart here.
        let s₁ ← replaceTail s node (pure (prevInClass s node))
        pure (promoteBehind s₁ node t)
  s₂.setTail (c + 1) (some node)

/-- The tail of the fast list goes to the front of the slow one, which `node` leaves. -/
def promoteExchange (s : State) (node tail : NodePtr) : State :=
  let s₁ := s.emit (swap (s.chunk node).chunk (s.chunk tail).chunk)
  let s₂ := ((s₁.dqFast tail).pushSlow tail).setLoc tail .slow
  (s₂.dqSlow node).setLoc node .fast

/-- The branch "migration": the tail of the fast list changes places with `node`. -/
def promoteSwap (s : State) (node tail : NodePtr) : m State := do
  let c := s.count node
  let s₁ := promoteExchange s node tail
  let s₂ ← replaceTail s₁ node (pure (prevInClass s₁ node))
  let found ← searchTail s₂.tails (s₂.windowSize - (c + 1)) (c + 1)
  let s₃ :=
    match found with
    | some t => s₂.insert node t
    | none => s₂.pushFast node
  s₃.setTail (c + 1) (some node)

/-- The sampled chunk enters the ring. -/
def promote (s : State) (node : NodePtr) : m State := do
  let c := s.count node
  let s₁ ←
    match s.loc node with
    | .fast => promoteInPlace s node
    | .slow => do
        -- On a tie the sampled chunk migrates.
        let tail ← orFault .null s.fastTail
        if s.count tail > c then promoteInPlace s node else promoteSwap s node tail
  pure (s₁.setCount node (c + 1))

/-- `if(samples[currentLoc])`: the chunk found there, if any, is demoted. -/
def leaveRing (s : State) (old : Option NodePtr) : m State :=
  match old with
  | some node => demote s node
  | none => pure s

/-- `chunk` is the answer of `getChunkInfo(addr)`. -/
def handleSample (s : State) (addr : Nat) (chunk : Option NodePtr) : m State :=
  match chunk with
  | some node => do
      let s₁ := s.emit [.logSample addr ⟨true, s.loc node = .fast⟩]
      let old ← s₁.getSample
      -- The entry is overwritten with itself; the counts stay.
      if old = some node then pure s₁.advance
      else do
        let s₂ ← leaveRing s₁ old
        let s₃ ← s₂.setSample node
        let s₄ ← promote s₃ node
        pure s₄.advance
  | none => pure (s.emit [.logSample addr ⟨false, false⟩])

/-! ## `allocCallback`, release -/

/-- The body of the loop over the nodes of the released region.  The test `nodes[i].loc = SLOW` is
an assignment: the node becomes slow and the branch for fast nodes is never taken. -/
def freeChunk (s : State) (node : NodePtr) : m State :=
  let s₁ := (s.setLoc node .slow).dqSlow node
  replaceTail s₁ node (pure (prevInClass s₁ node))

/-- Clears the entries of the ring whose chunk starts inside the region, as measured by whole
chunks and including its end. -/
def purgeSamples (s : State) (region : ShamblesRegion) : State :=
  { s with
    samples := s.samples.map fun sample =>
      match sample with
      | some n =>
          let start := (s.chunk n).chunk.start
          if start ≥ region.start ∧
              start ≤ wrap64 (region.start + s.chunkSize * region.nChunks) then none
          else some n
      | none => none }

/-- The branch `ALLOC_EVENT_FREE`, for the region `getRegion` returned. -/
def freeRegion (s : State) (p : RegionPtr) (region : ShamblesRegion) : m State := do
  let s₁ := s.emit (unbind region)
  let s₂ ← (nodesOf p region).foldlM freeChunk s₁
  let s₃ := purgeSamples s₂ region
  pure { s₃ with regions := s₃.regions.filter (fun r => r.1 ≠ p) }

/-! ## Events -/

def step (s : State) : Event → Option State
  | .alloc p region => allocRegion s p region
  | .free p =>
      match s.regions.lookup p with
      | some region => freeRegion s p region
      | none => none
  | .sample addr chunk => handleSample s addr chunk

def system : System State Event :=
  { enabled := fun s e => Enabled s.regions e
    step := step }

instance (s : State) (e : Event) : Decidable (system.enabled s e) :=
  inferInstanceAs (Decidable (Enabled s.regions e))

end Window
end Shambles
