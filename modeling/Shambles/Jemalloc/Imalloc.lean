import Shambles.Jemalloc.EntryPoints
import Shambles.Structures.Chunks

/-!
# Imalloc — the checks and the error paths behind the entry points

Each entry point fills in the options of one call of `imalloc` and reports afterwards what stands
in its result.  This module follows that call: the product of count and size, the check of the
alignment, the three labels it can end at, and what each of them leaves in `*result`.

Whatever lies below (size classes, caches, arenas) is an `Allocator`, which may fail for reasons of
its own.  `opt_xmalloc` is off, as by default: with it a failing call aborts.  `errno` is left out.
-/

namespace Shambles
namespace Jemalloc

open Structures

inductive Errno
  | ENOMEM
  | EINVAL
  deriving DecidableEq, Repr

/-- The part of `static_opts_t` that decides about the result. -/
structure StaticOpts where
  mayOverflow : Bool := false
  bumpEmptyAlignedAlloc : Bool := false
  nullOutResultOnError : Bool := false
  minAlignment : Nat := 0
  deriving DecidableEq, Repr

structure DynamicOpts where
  numItems : Nat := 0
  itemSize : Nat := 0
  alignment : Nat := 0
  zero : Bool := false
  deriving DecidableEq, Repr

structure Allocator where
  /-- `malloc_initialized()`, or `malloc_init()` succeeds. -/
  initialized : Bool
  /-- `aligned_usize_get` for a size and an alignment; `none` if there is no such size class. -/
  usize : Nat → Nat → Option Nat
  /-- `imalloc_no_sample` or `imalloc_sample` for a size class and an alignment; 0 for NULL. -/
  allocate : Nat → Nat → Nat
  /-- The thread cache in `imalloc_fastpath`; 0 when it calls its fallback. -/
  fastpath : Nat → Nat

/-! ## `imalloc` -/

/-- The high half of a `size_t`. -/
def highBits : Nat :=
  2 ^ 64 - 2 ^ 32

/-- Whether the product overflows, and the product as far as a `size_t` holds it. -/
def computeSizeWithOverflow (mayOverflow : Bool) (dopts : DynamicOpts) : Bool × Nat :=
  if !mayOverflow then
    (false, dopts.itemSize)
  else
    let size := wrap64 (dopts.itemSize * dopts.numItems)
    if size = 0 then
      (dopts.numItems ≠ 0 && dopts.itemSize ≠ 0, size)
    else if highBits &&& (dopts.numItems ||| dopts.itemSize) = 0 then
      -- Both factors fit in half a word, and so the product in a word.
      (false, size)
    else if size / dopts.itemSize = dopts.numItems then
      (false, size)
    else
      (true, size)

/-- The error, if any, and what `*result` holds afterwards; `result` is what it held before. -/
def imallocBody (a : Allocator) (sopts : StaticOpts) (dopts : DynamicOpts) (result : Nat) :
    Option Errno × Nat :=
  let unwritten := if sopts.nullOutResultOnError then 0 else result
  let (overflow, size) := computeSizeWithOverflow sopts.mayOverflow dopts
  if overflow then
    (some .ENOMEM, unwritten)
  else if dopts.alignment < sopts.minAlignment ∨ dopts.alignment &&& (dopts.alignment - 1) ≠ 0 then
    (some .EINVAL, unwritten)
  else
    -- An empty aligned allocation is treated as one of one byte.
    let bumped :=
      if dopts.alignment ≠ 0 ∧ sopts.bumpEmptyAlignedAlloc ∧ size = 0 then 1 else size
    match a.usize bumped dopts.alignment with
    | none => (some .ENOMEM, unwritten)
    | some usize =>
        let allocation := a.allocate usize dopts.alignment
        if allocation = 0 then (some .ENOMEM, unwritten) else (none, allocation)

/-- `imalloc_init_check` writes NULL whatever the options say. -/
def imalloc (a : Allocator) (sopts : StaticOpts) (dopts : DynamicOpts) (result : Nat) :
    Option Errno × Nat :=
  if a.initialized then imallocBody a sopts dopts result else (some .ENOMEM, 0)

/-- A failed call leaves the old value or NULL, and only NULL with `null_out_result_on_error`. -/
theorem imalloc_error {a : Allocator} {sopts : StaticOpts} {dopts : DynamicOpts} {result : Nat}
    (h : (imalloc a sopts dopts result).1 ≠ none) :
    (imalloc a sopts dopts result).2 =
      if sopts.nullOutResultOnError ∨ a.initialized = false then 0 else result := by
  cases hinit : a.initialized with
  | false => simp [imalloc, hinit]
  | true =>
      simp only [imalloc, hinit, if_true, imallocBody] at h ⊢
      split
      · simp
      · split
        · simp
        · split
          · simp
          · split
            · simp
            · -- Here the call has succeeded.
              simp_all

/-! ## The entry points -/

def SHAMBLES_ALIGNMENT_SHIFT : Nat :=
  12

def SHAMBLES_ALIGNMENT : Nat :=
  1 <<< SHAMBLES_ALIGNMENT_SHIFT

/-- `__builtin_ctzl`: the place of the lowest bit of a number that is not zero. -/
def ctz (n : Nat) : Nat :=
  ((List.range 64).find? n.testBit).getD 64

theorem ctz_two_pow {k : Nat} (h : k < 64) : ctz (2 ^ k) = k := by
  have hfind : (List.range 64).find? (2 ^ k).testBit = some k := by
    refine List.find?_range_eq_some.2 ⟨by simp, by simpa using h, ?_⟩
    intro j hj
    have hne : k ≠ j := by omega
    simp [hne]
  simp [ctz, hfind]

def SHAMBLES_REALIGN (align : Nat) : Nat :=
  if align ≠ 0 then
    wrap64 (align <<< (SHAMBLES_ALIGNMENT_SHIFT - ctz align))
  else
    SHAMBLES_ALIGNMENT

/-- What a call returns, the options it passed to `imalloc` (none when the thread cache served it)
and its reports. -/
structure Answer where
  error : Option Errno
  ptr : Nat
  opts : Option DynamicOpts
  reports : List AllocEvent
  deriving DecidableEq, Repr

namespace Imalloc

variable (a : Allocator) (sizeThresshold : Nat)

/-- The alignment of the functions that take none. -/
def largeAlignment (size : Nat) : Nat :=
  if sizeThresshold ≤ size then SHAMBLES_ALIGNMENT else 0

/-- The alignment of the functions that take one. -/
def realignment (alignment size : Nat) : Nat :=
  if sizeThresshold ≤ size then SHAMBLES_REALIGN alignment else alignment

/-- `ret` is written on every path: on error by `null_out_result_on_error`. -/
def mallocDefault (size : Nat) : Option Errno × Nat × DynamicOpts :=
  let dopts : DynamicOpts :=
    { numItems := 1, itemSize := size, alignment := largeAlignment sizeThresshold size }
  let r := imalloc a { nullOutResultOnError := true } dopts 0
  (r.1, r.2, dopts)

def malloc (size : Nat) : Answer :=
  if sizeThresshold ≤ size ∨ a.fastpath size = 0 then
    let r := mallocDefault a sizeThresshold size
    ⟨r.1, r.2.1, some r.2.2, jeMalloc size r.2.1⟩
  else
    ⟨none, a.fastpath size, none, jeMalloc size (a.fastpath size)⟩

/-- `memptr` is what `*memptr` holds before the call. -/
def posixMemalign (memptr alignment size : Nat) : Answer :=
  let dopts : DynamicOpts :=
    { numItems := 1, itemSize := size, alignment := realignment sizeThresshold alignment size }
  let r := imalloc a { bumpEmptyAlignedAlloc := true, minAlignment := 8 } dopts memptr
  ⟨r.1, r.2, some dopts, jePosixMemalign size r.2⟩

def alignedAlloc (alignment size : Nat) : Answer :=
  let dopts : DynamicOpts :=
    { numItems := 1, itemSize := size, alignment := realignment sizeThresshold alignment size }
  let r := imalloc a
    { bumpEmptyAlignedAlloc := true, nullOutResultOnError := true, minAlignment := 1 } dopts 0
  ⟨r.1, r.2, some dopts, jeAlignedAlloc size r.2⟩

/-- The size of one item is what counts here, for the alignment and in the report. -/
def calloc (num size : Nat) : Answer :=
  let dopts : DynamicOpts :=
    { numItems := num, itemSize := size, alignment := largeAlignment sizeThresshold size,
      zero := true }
  let r := imalloc a { mayOverflow := true, nullOutResultOnError := true } dopts 0
  ⟨r.1, r.2, some dopts, jeCalloc num size r.2⟩

/-- `je_realloc(NULL, size)` -/
def reallocNull (size : Nat) : Answer :=
  let dopts : DynamicOpts :=
    { numItems := 1, itemSize := size, alignment := largeAlignment sizeThresshold size }
  let r := imalloc a { nullOutResultOnError := true } dopts 0
  ⟨r.1, r.2, some dopts, jeRealloc 0 size r.2⟩

end Imalloc

/-- A call that allocates. -/
inductive AllocCall
  | malloc (size : Nat)
  | calloc (num size : Nat)
  | alignedAlloc (alignment size : Nat)
  | posixMemalign (memptr alignment size : Nat)
  | reallocNull (size : Nat)
  deriving DecidableEq, Repr

namespace AllocCall

def answer (a : Allocator) (sizeThresshold : Nat) : AllocCall → Answer
  | malloc size => Imalloc.malloc a sizeThresshold size
  | calloc num size => Imalloc.calloc a sizeThresshold num size
  | alignedAlloc alignment size => Imalloc.alignedAlloc a sizeThresshold alignment size
  | posixMemalign memptr alignment size =>
      Imalloc.posixMemalign a sizeThresshold memptr alignment size
  | reallocNull size => Imalloc.reallocNull a sizeThresshold size

/-- The size argument, of one item for `calloc`. -/
def size : AllocCall → Nat
  | malloc size => size
  | calloc _ size => size
  | alignedAlloc _ size => size
  | posixMemalign _ _ size => size
  | reallocNull size => size

/-- The number of bytes requested. -/
def total : AllocCall → Nat
  | calloc num size => num * size
  | call => call.size

/-- `posix_memalign` returns an error code, the others NULL. -/
def Failed (call : AllocCall) (answer : Answer) : Prop :=
  match call with
  | posixMemalign _ _ _ => answer.error ≠ none
  | _ => answer.ptr = 0

instance : (call : AllocCall) → (answer : Answer) → Decidable (call.Failed answer)
  | posixMemalign _ _ _, answer => inferInstanceAs (Decidable (answer.error ≠ none))
  | malloc _, answer => inferInstanceAs (Decidable (answer.ptr = 0))
  | calloc _ _, answer => inferInstanceAs (Decidable (answer.ptr = 0))
  | alignedAlloc _ _, answer => inferInstanceAs (Decidable (answer.ptr = 0))
  | reallocNull _, answer => inferInstanceAs (Decidable (answer.ptr = 0))

/-- What a failed call leaves in its result. -/
def unwritten (a : Allocator) : AllocCall → Nat
  | posixMemalign memptr _ _ => if a.initialized then memptr else 0
  | _ => 0

end AllocCall

end Jemalloc
end Shambles
