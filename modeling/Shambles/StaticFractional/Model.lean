import Shambles.Jemalloc.LogAlloc
import Shambles.Plugins.Migration
import Shambles.Plugins.Nodes
import Shambles.Structures.RegionTree

/-!
# Model — the static-fractional plugin

`bindAlloc` of `static-fractional.c` places an allocation once, when it is made, by the next entry
of a list of fractions.  The function is written twice: the logging build keeps the regions in the
region map and marks their chunks, the plain build only binds.

- `current` counts the large allocations; the `int` that `__atomic_fetch_add` returns is `toInt` of
  it.
- A state keeps the effects of every call of `bindAlloc` apart (`trace`).
- `LOG_ALLOC` writes to the log file and to nothing else; it is left out.
-/

namespace Shambles
namespace StaticFractional

open Jemalloc Plugins Structures

def FRACTION_SHIFT : Nat :=
  20

def PAGE_SHIFT : Nat :=
  12

/-- The static variables after `shambles_init`; `len` is the length of `fractions`. -/
structure Settings where
  sizeThresshold : Nat
  fractions : List Nat
  invert : Bool
  /-- A threshold of zero is replaced by the default. -/
  thresshold_pos : 1 ≤ sizeThresshold
  /-- `fraction` cuts off at one. -/
  fractions_le : ∀ f ∈ fractions, f ≤ 2 ^ FRACTION_SHIFT

/-- `size` times the fraction, rounded; both the shift and the product are taken modulo `2^64`. -/
def fastSize (size fract : Nat) : Nat :=
  let size := wrap64 (wrap64 (size <<< PAGE_SHIFT) * fract) >>> (FRACTION_SHIFT + PAGE_SHIFT - 1)
  (size >>> 1) + (size &&& 1)

/-- The fraction of the allocation number `loc`: zero past the end of the array
(`loc >= len || (fractions[loc] == 0)`), `none` where the array is read before its start. -/
def Settings.fractionAt (P : Settings) (loc : Int) : Option Nat :=
  if (P.fractions.length : Int) ≤ loc then some 0
  else if loc < 0 then none
  else P.fractions[loc.toNat]?

/-- A call of `bindAlloc`, with the addresses `plugin_malloc` would answer with. -/
structure Call where
  event : AllocEvent
  output : RegionPtr
  chunksPtr : Nat
  deriving DecidableEq, Repr

/-- An allocation that is placed. -/
def Settings.Large (P : Settings) (call : Call) : Prop :=
  call.event.Large P.sizeThresshold

instance (P : Settings) (call : Call) : Decidable (P.Large call) :=
  inferInstanceAs (Decidable (call.event.Large P.sizeThresshold))

/-- How many of the calls are large allocations. -/
def Settings.largeCount (P : Settings) (calls : List Call) : Nat :=
  Jemalloc.largeCount P.sizeThresshold (calls.map Call.event)

theorem Settings.largeCount_snoc (P : Settings) (calls : List Call) (call : Call) :
    P.largeCount (calls ++ [call]) = P.largeCount calls + if P.Large call then 1 else 0 := by
  rw [Settings.largeCount, List.map_append]
  exact Jemalloc.largeCount_snoc P.sizeThresshold _ call.event

theorem Settings.largeCount_eq (P : Settings) (calls : List Call) :
    P.largeCount calls = calls.countP fun call => P.Large call :=
  List.countP_map

/-- An allocation has an end that is an address. -/
def Settings.Fits (P : Settings) (call : Call) : Prop :=
  P.Large call → call.event.outPtr + call.event.size < 2 ^ 64

instance (P : Settings) (call : Call) : Decidable (P.Fits call) :=
  inferInstanceAs (Decidable (_ → _))

/-! ## The logging build -/

structure LoggingState (g : Geometry) where
  current : Nat
  tree : TreeState g
  /-- `privData` of chunk `i` of the region at `p`. -/
  privData : RegionPtr → Nat → Nat
  trace : List (List Effect)

namespace LoggingState

variable {g : Geometry}

def init (g : Geometry) : LoggingState g :=
  ⟨0, TreeState.init g, fun _ _ => 0, []⟩

def emit (s : LoggingState g) (es : List Effect) : LoggingState g :=
  { s with trace := s.trace ++ [es] }

def setPrivData (s : LoggingState g) (p : RegionPtr) (i v : Nat) : LoggingState g :=
  { s with privData := Function.update s.privData p (Function.update (s.privData p) i v) }

/-- The region that `addRegionChunks` returns, and the state behind it. -/
def addRegionChunks (s : LoggingState g) (call : Call) (sizes : List Nat) :
    ShamblesRegion × LoggingState g :=
  let r := Structures.addRegionChunks g s.tree.root call.output call.chunksPtr call.event.outPtr
    call.event.size sizes
  (r.1, { s with tree := s.tree.add call.output r })

end LoggingState

/-- `region->chunks[i]` -/
def chunkAt (region : ShamblesRegion) (i : Nat) : ShamblesChunk :=
  region.chunks.getD i ⟨0, 0⟩

section LoggingBuild

variable (P : Settings) {g : Geometry}

/-- The branch `ALLOC_EVENT_ALLOC`, for an allocation that is large enough. -/
def placeLogging (s : LoggingState g) (call : Call) (f : Nat) : LoggingState g :=
  let size := call.event.size
  if f = 0 then
    let (region, s₁) := s.addRegionChunks call [size]
    if P.invert then
      (s₁.setPrivData call.output 0 1).emit (bindFastAlloc (chunkAt region 0))
    else
      (s₁.setPrivData call.output 0 0).emit (bindSlowAlloc (chunkAt region 0))
  else if 2 ^ FRACTION_SHIFT ≤ f then
    let (region, s₁) := s.addRegionChunks call [size]
    if P.invert then
      (s₁.setPrivData call.output 0 0).emit (bindSlowAlloc (chunkAt region 0))
    else
      (s₁.setPrivData call.output 0 1).emit (bindFastAlloc (chunkAt region 0))
  else
    let size₀ := fastSize size f
    let size₁ := sub64 size size₀
    let (region, s₁) := s.addRegionChunks call [size₀, size₁]
    if P.invert then
      ((s₁.setPrivData call.output 0 0).setPrivData call.output 1 1).emit
        (bindSlowAlloc (chunkAt region 0) ++ bindFastAlloc (chunkAt region 1))
    else
      ((s₁.setPrivData call.output 0 1).setPrivData call.output 1 0).emit
        (bindFastAlloc (chunkAt region 0) ++ bindSlowAlloc (chunkAt region 1))

/-- `deleteRegion(getRegion(in))` -/
def releaseLogging (s : LoggingState g) (inPtr : Nat) : Option (LoggingState g) :=
  match getRegion g s.tree.root inPtr with
  | none => some s
  | some p =>
      match s.tree.regions.lookup p with
      -- a region that has been freed already
      | none => none
      | some region =>
          (deleteRegion g s.tree.root region).map fun root =>
            { s with tree := ⟨root, s.tree.regions.filter fun r => r.1 ≠ p⟩ }

/-- `bindAlloc` with `SHAMBLES_LOGGER_ENABLED` -/
def bindAllocLogging (s : LoggingState g) (call : Call) : Option (LoggingState g) :=
  match call.event.type with
  | .alloc =>
      if P.sizeThresshold ≤ call.event.size then
        -- `__atomic_fetch_add`: `loc` is the old value, as an `int`
        (P.fractionAt (toInt s.current)).map fun f =>
          placeLogging P { s with current := s.current + 1 } call f
      else
        some (s.emit [])
  -- "todo" in the source
  | .realloc => some (s.emit [])
  | .free => (releaseLogging s call.event.inPtr).map fun s₁ => s₁.emit []

variable (g)

/-- `plugin_malloc` answers with memory that is not in use. -/
def loggingBuild : System (LoggingState g) Call :=
  { enabled := fun s call =>
      P.Fits call ∧ (P.Large call → s.tree.regions.lookup call.output = none)
    step := bindAllocLogging P }

instance (s : LoggingState g) (call : Call) : Decidable ((loggingBuild P g).enabled s call) :=
  inferInstanceAs (Decidable (_ ∧ _))

end LoggingBuild

/-! ## The plain build -/

structure PlainState where
  current : Nat
  trace : List (List Effect)
  deriving DecidableEq, Repr

namespace PlainState

def init : PlainState :=
  ⟨0, []⟩

/-- `LOG_MIGRATION` is empty in this build. -/
def emit (s : PlainState) (es : List Effect) : PlainState :=
  { s with trace := s.trace ++ [es.filter Effect.isMbind] }

end PlainState

section PlainBuild

variable (P : Settings)

def placePlain (s : PlainState) (call : Call) (f : Nat) : PlainState :=
  let out := call.event.outPtr
  let size := call.event.size
  if f = 0 then
    let chunk : ShamblesChunk := ⟨out, size⟩
    if P.invert then s.emit (bindFastAlloc chunk) else s.emit (bindSlowAlloc chunk)
  else if 2 ^ FRACTION_SHIFT ≤ f then
    let chunk : ShamblesChunk := ⟨out, size⟩
    if P.invert then s.emit (bindSlowAlloc chunk) else s.emit (bindFastAlloc chunk)
  else
    let chunk : ShamblesChunk := ⟨out, fastSize size f⟩
    let first := if P.invert then bindSlowAlloc chunk else bindFastAlloc chunk
    -- the same variable again, first its start and then its size
    let chunk : ShamblesChunk := { chunk with start := wrap64 (out + chunk.size) }
    let chunk : ShamblesChunk := { chunk with size := sub64 size chunk.size }
    let second := if P.invert then bindFastAlloc chunk else bindSlowAlloc chunk
    s.emit (first ++ second)

/-- `bindAlloc` without `SHAMBLES_LOGGER_ENABLED` -/
def bindAllocPlain (s : PlainState) (call : Call) : Option PlainState :=
  if call.event.type = .alloc ∧ P.sizeThresshold ≤ call.event.size then
    (P.fractionAt (toInt s.current)).map fun f =>
      placePlain P { s with current := s.current + 1 } call f
  else
    some (s.emit [])

def plainBuild : System PlainState Call :=
  { enabled := fun _ call => P.Fits call
    step := bindAllocPlain P }

instance (t : PlainState) (call : Call) : Decidable ((plainBuild P).enabled t call) :=
  inferInstanceAs (Decidable (P.Fits call))

end PlainBuild

end StaticFractional
end Shambles
