import Shambles.Structures.Chunks

/-!
# Migration — the page bindings issued by the plugins

`migration.c` wraps `mbind`.  A plugin's visible actions are kept as a trace of `Effect`s, oldest
first: every `mbind` call and every call of a logging hook.  `mbind` is taken to act as called, on
exactly the bytes of its range, so the placement of a byte is decided by the last call that covers
it (`bindingAt`).
-/

namespace Shambles
namespace Plugins

open Structures

/-- `Direction` of `tracking.h`. -/
inductive Direction
  | initFast
  | initSlow
  | slow2fast
  | fast2slow
  deriving DecidableEq, Repr

/-- The policy argument of `mbind`: `MPOL_DEFAULT`, or `MPOL_BIND` with one of the two masks. -/
inductive Policy
  | default
  | fastmask
  | slowmask
  deriving DecidableEq, Repr

/-- The flags of `LOG_SAMPLE`. -/
structure SampleFlags where
  tracked : Bool
  hit : Bool
  deriving DecidableEq, Repr

inductive Effect
  | mbind (start : Nat) (size : Nat) (policy : Policy)
  | logMigration (dir : Direction) (addr : Nat) (size : Nat)
  | logSample (addr : Nat) (flags : SampleFlags)
  deriving DecidableEq, Repr

/-- Not a call of a logging hook. -/
def Effect.isMbind : Effect → Bool
  | .mbind _ _ _ => true
  | _ => false

/-! ## The functions of `migration.c` -/

/-- Only the first chunk is covered: the length passed is `region->chunks->size`. -/
def unbind (region : ShamblesRegion) : List Effect :=
  match region.chunks with
  | [] => []
  | c :: _ => [.mbind region.start c.size .default]

def bindFast (chunk : ShamblesChunk) : List Effect :=
  [.mbind chunk.start chunk.size .fastmask, .logMigration .slow2fast chunk.start chunk.size]

def bindSlow (chunk : ShamblesChunk) : List Effect :=
  [.mbind chunk.start chunk.size .slowmask, .logMigration .fast2slow chunk.start chunk.size]

def bindFastAlloc (chunk : ShamblesChunk) : List Effect :=
  [.mbind chunk.start chunk.size .fastmask, .logMigration .initFast chunk.start chunk.size]

def bindSlowAlloc (chunk : ShamblesChunk) : List Effect :=
  [.mbind chunk.start chunk.size .slowmask, .logMigration .initSlow chunk.start chunk.size]

def swap (fastChunk slowChunk : ShamblesChunk) : List Effect :=
  -- The chunk that leaves the fast memory makes room first.
  [.mbind slowChunk.start slowChunk.size .slowmask,
    .mbind fastChunk.start fastChunk.size .fastmask,
    .logMigration .slow2fast fastChunk.start fastChunk.size,
    .logMigration .fast2slow slowChunk.start slowChunk.size]

/-! ## What the bindings amount to -/

/-- The policy of byte `a` after one more effect. -/
def rebind (a : Nat) (b : Option Policy) : Effect → Option Policy
  | .mbind start size policy => if start ≤ a ∧ a < start + size then some policy else b
  | _ => b

/-- The policy of the last `mbind` that covers byte `a`, `none` if there is none. -/
def bindingAt (trace : List Effect) (a : Nat) : Option Policy :=
  trace.foldl (rebind a) none

theorem bindingAt_append (trace es : List Effect) (a : Nat) :
    bindingAt (trace ++ es) a = es.foldl (rebind a) (bindingAt trace a) := by
  simp [bindingAt]

/-- One `mbind` of a chunk and the log entry behind it. -/
theorem bindingAt_bind (trace : List Effect) (c : ShamblesChunk) (policy : Policy)
    (dir : Direction) (a : Nat) :
    bindingAt (trace ++ [.mbind c.start c.size policy, .logMigration dir c.start c.size]) a =
      if c.Covers a then some policy else bindingAt trace a := by
  simp only [bindingAt_append, List.foldl_cons, List.foldl_nil, rebind]
  rfl

/-- After a swap the chunk that comes in is fast, the chunk that leaves is slow. -/
theorem bindingAt_swap (trace : List Effect) (fastChunk slowChunk : ShamblesChunk) (a : Nat) :
    bindingAt (trace ++ swap fastChunk slowChunk) a =
      if fastChunk.Covers a then some .fastmask
      else if slowChunk.Covers a then some .slowmask
      else bindingAt trace a := by
  simp only [bindingAt_append, swap, List.foldl_cons, List.foldl_nil, rebind]
  rfl

theorem bindingAt_logSample (trace : List Effect) (addr : Nat) (flags : SampleFlags) (a : Nat) :
    bindingAt (trace ++ [.logSample addr flags]) a = bindingAt trace a := by
  simp [bindingAt_append, rebind]

/-- `unbind` reaches the bytes of the first chunk of its region and no others. -/
theorem bindingAt_unbind (trace : List Effect) {region : ShamblesRegion} {c : ShamblesChunk}
    {cs : List ShamblesChunk} (hchunks : region.chunks = c :: cs) (hstart : c.start = region.start)
    (a : Nat) :
    bindingAt (trace ++ unbind region) a =
      if c.Covers a then some .default else bindingAt trace a := by
  simp only [bindingAt_append, unbind, hchunks, ← hstart, List.foldl_cons, List.foldl_nil, rebind]
  rfl

/-! ## The bindings of a trace -/

/-- The ranges that were bound, in order, each with its policy. -/
def bindings (trace : List Effect) : List (ShamblesChunk × Policy) :=
  trace.filterMap fun
    | .mbind start size policy => some (⟨start, size⟩, policy)
    | _ => none

theorem bindings_append (trace es : List Effect) :
    bindings (trace ++ es) = bindings trace ++ bindings es := by
  simp [bindings]

theorem bindings_filter (trace : List Effect) :
    bindings (trace.filter Effect.isMbind) = bindings trace := by
  induction trace with
  | nil => rfl
  | cons e trace ih =>
      cases e with
      | mbind start size policy => exact congrArg (List.cons _) ih
      | logMigration dir addr size => exact ih
      | logSample addr flags => exact ih

/-- The placement of a byte depends on the bindings only. -/
theorem foldl_rebind_eq (a : Nat) (trace : List Effect) (b : Option Policy) :
    trace.foldl (rebind a) b =
      (bindings trace).foldl (fun b x => if x.1.Covers a then some x.2 else b) b := by
  induction trace generalizing b with
  | nil => rfl
  | cons e trace ih =>
      cases e with
      | mbind start size policy => exact ih _
      | logMigration dir addr size => exact ih _
      | logSample addr flags => exact ih _

theorem foldl_cover_of_not_covers {a : Nat} {bs : List (ShamblesChunk × Policy)}
    (b : Option Policy) (h : ∀ x ∈ bs, ¬ x.1.Covers a) :
    bs.foldl (fun b x => if x.1.Covers a then some x.2 else b) b = b := by
  induction bs with
  | nil => rfl
  | cons x bs ih =>
      rcases List.forall_mem_cons.1 h with ⟨hx, hrest⟩
      simpa [hx] using ih hrest

theorem foldl_cover_of_tiles {a : Nat} {bs : List (ShamblesChunk × Policy)} :
    ∀ {start k : Nat} {c : ShamblesChunk} {policy : Policy} (b : Option Policy),
      Tiles start (bs.map Prod.fst) → bs[k]? = some (c, policy) → c.Covers a →
        bs.foldl (fun b x => if x.1.Covers a then some x.2 else b) b = some policy := by
  induction bs with
  | nil =>
      intro start k c policy b _ hk
      simp at hk
  | cons y bs ih =>
      intro start k c policy b htiles hk hcover
      rcases htiles with ⟨hstart, hrest⟩
      cases k with
      | zero =>
          obtain rfl : y = (c, policy) := by simpa using hk
          -- the ranges behind `c` do not reach back to `a`
          have hpast : ∀ x ∈ bs, ¬ x.1.Covers a := by
            intro x hx hx'
            have hbegin : c.start = start := hstart
            have hbehind : start + c.size ≤ a :=
              (hrest.bounds x.1 (List.mem_map_of_mem hx) a hx').1
            unfold ShamblesChunk.Covers at hcover
            omega
          simpa [hcover] using foldl_cover_of_not_covers (some policy) hpast
      | succ k =>
          have hk' : bs[k]? = some (c, policy) := by simpa using hk
          exact ih _ hrest hk' hcover

/-- In a trace whose ranges tile, a byte has the policy of the range it lies in. -/
theorem bindingAt_of_tiles {trace : List Effect} {start k a : Nat} {c : ShamblesChunk}
    {policy : Policy} (htiles : Tiles start ((bindings trace).map Prod.fst))
    (hk : (bindings trace)[k]? = some (c, policy)) (hcover : c.Covers a) :
    bindingAt trace a = some policy := by
  rw [bindingAt, foldl_rebind_eq]
  exact foldl_cover_of_tiles none htiles hk hcover

end Plugins
end Shambles
