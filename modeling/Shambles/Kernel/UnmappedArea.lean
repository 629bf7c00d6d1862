import Shambles.Kernel.Poison

/-!
# UnmappedArea — where new mappings are placed

The patched `generic_get_unmapped_area` and its top-down variant choose the address of a mapping.
Sampled mappings have to lie above `KROOM_BASE_VA_4`, so that hiding one top-level page-table entry
hides all of them, and every other mapping below it.

An `unsigned long` is a `BitVec 64`: subtractions and additions wrap, comparisons are unsigned.
What the patch calls but does not contain is in `Primitives`; of `vm_unmapped_area` only its contract
is used (`SearchesWithin`).

Both variants narrow the window `mmap_start .. mmap_end` first.  Every address they return lies in
it (`InWindow`), and the window lies on one side of `KROOM_BASE_VA_4`.
-/

namespace Shambles
namespace Kernel
namespace UnmappedArea

/-! ## Constants -/

abbrev ULong := BitVec 64

/-- The value for arm64, the architecture that uses the generic functions. -/
def KROOM_BASE_VA_4 : ULong :=
  BitVec.ofNat 64 (Poison.kroomBaseVa4 .arm64)

def PAGE_SIZE : ULong :=
  0x1000#64

def MAP_FIXED : ULong :=
  0x10#64

def MAP_SAMPLED : ULong :=
  0x80#64

/-- `-ENOMEM` as an `unsigned long` -/
def ENOMEM : ULong :=
  -12#64

def VM_UNMAPPED_AREA_TOPDOWN : ULong :=
  1#64

def max (x y : ULong) : ULong :=
  if x > y then x else y

def min (x y : ULong) : ULong :=
  if x < y then x else y

/-- `PAGE_ALIGN`; it wraps to 0 in the last page. -/
def pageAlign (addr : ULong) : ULong :=
  (addr + (PAGE_SIZE - 1)) &&& ~~~(PAGE_SIZE - 1)

def offsetInPage (addr : ULong) : ULong :=
  addr &&& (PAGE_SIZE - 1)

/-! ## The address space -/

/-- A mapping, with the bounds that include its guard gaps. -/
structure Vma where
  vmEnd : ULong
  vmStartGap : ULong
  vmEndGap : ULong
  deriving DecidableEq, Repr

/-- The mappings are in the order of their addresses. -/
structure Mm where
  mmapBase : ULong
  mappings : List Vma
  deriving DecidableEq, Repr

/-- `find_vma_prev`: the first mapping that ends after `addr`, and the one in front of it. -/
def findVmaPrev (mm : Mm) (addr : ULong) : Option Vma × Option Vma :=
  (mm.mappings.find? fun vma => addr < vma.vmEnd,
    (mm.mappings.takeWhile fun vma => ¬ addr < vma.vmEnd).getLast?)

structure Info where
  flags : ULong
  length : ULong
  lowLimit : ULong
  highLimit : ULong
  alignMask : ULong
  alignOffset : ULong
  deriving DecidableEq, Repr

/-- The parts of the kernel that the patch relies on. -/
structure Primitives where
  archGetMmapEnd : ULong → ULong → ULong → ULong
  archGetMmapBase : ULong → ULong → ULong
  mmapMinAddr : ULong
  taskUnmappedBase : ULong
  vmUnmappedArea : Mm → Info → ULong

/-- A search fails, or finds a page-aligned range between its limits. -/
def Primitives.SearchesWithin (k : Primitives) : Prop :=
  ∀ mm info, k.vmUnmappedArea mm info = ENOMEM ∨
    (offsetInPage (k.vmUnmappedArea mm info) = 0 ∧ info.lowLimit ≤ k.vmUnmappedArea mm info ∧
      (k.vmUnmappedArea mm info).toNat + info.length.toNat ≤ info.highLimit.toNat)

/-! ## The two functions -/

def Sampled (flags : ULong) : Prop :=
  flags &&& MAP_SAMPLED ≠ 0

instance (flags : ULong) : Decidable (Sampled flags) :=
  inferInstanceAs (Decidable (_ ≠ _))

def mmapStart (k : Primitives) (flags : ULong) : ULong :=
  if Sampled flags then max k.mmapMinAddr KROOM_BASE_VA_4 else k.mmapMinAddr

def mmapEnd (k : Primitives) (addr len flags : ULong) : ULong :=
  if Sampled flags then k.archGetMmapEnd addr len flags
  else min (k.archGetMmapEnd addr len flags) KROOM_BASE_VA_4

/-- The test of the page-aligned hint, with `start` and `stop` for `mmap_start` and `mmap_end`. -/
def HintFits (mm : Mm) (start stop addr len : ULong) : Prop :=
  stop - len ≥ addr ∧ addr ≥ start ∧
    (∀ vma ∈ (findVmaPrev mm addr).1, addr + len ≤ vma.vmStartGap) ∧
    (∀ prev ∈ (findVmaPrev mm addr).2, addr ≥ prev.vmEndGap)

instance (mm : Mm) (start stop addr len : ULong) : Decidable (HintFits mm start stop addr len) :=
  inferInstanceAs (Decidable (_ ∧ _ ∧ _ ∧ _))

/-- The variable `addr` after the test of the hint. -/
def hint (addr : ULong) : ULong :=
  if addr ≠ 0 then pageAlign addr else addr

def genericGetUnmappedArea (k : Primitives) (mm : Mm) (addr len flags : ULong) : ULong :=
  let start := mmapStart k flags
  let stop := mmapEnd k addr len flags
  if len > stop - start then
    ENOMEM
  else if flags &&& MAP_FIXED ≠ 0 then
    addr
  else if addr ≠ 0 ∧ HintFits mm start stop (hint addr) len then
    hint addr
  else
    k.vmUnmappedArea mm
      { flags := 0
        length := len
        lowLimit := max start mm.mmapBase
        highLimit := stop
        alignMask := 0
        alignOffset := 0 }

/-- The assertions of the top-down variant, `VM_BUG_ON` and the one of `CONFIG_KROOM_DEBUG`. -/
inductive Bug
  | notENOMEM
  | wrongSide
  deriving DecidableEq, Repr

/-- The fallback after a failed top-down search. -/
def fallback (k : Primitives) (mm : Mm) (start stop len found : ULong) : Except Bug ULong :=
  if offsetInPage found ≠ 0 then
    if found ≠ ENOMEM then
      .error .notENOMEM
    else
      .ok (k.vmUnmappedArea mm
        { flags := 0
          length := len
          lowLimit := max k.taskUnmappedBase start
          highLimit := stop
          alignMask := 0
          alignOffset := 0 })
  else
    .ok found

/-- `addr + len` of the assertion wraps when `addr` is an error value. -/
def OnWrongSide (flags addr len : ULong) : Prop :=
  if Sampled flags then addr < KROOM_BASE_VA_4 else addr + len > KROOM_BASE_VA_4

instance (flags addr len : ULong) : Decidable (OnWrongSide flags addr len) :=
  inferInstanceAs (Decidable
    (if Sampled flags then addr < KROOM_BASE_VA_4 else addr + len > KROOM_BASE_VA_4))

def genericGetUnmappedAreaTopdown (k : Primitives) (mm : Mm) (addr len flags : ULong) :
    Except Bug ULong :=
  let start := mmapStart k flags
  let stop := mmapEnd k addr len flags
  if len > stop - start then
    .ok ENOMEM
  else if flags &&& MAP_FIXED ≠ 0 then
    .ok addr
  else if addr ≠ 0 ∧ HintFits mm start stop (hint addr) len then
    .ok (hint addr)
  else do
    let found ← fallback k mm start stop len <| k.vmUnmappedArea mm
      { flags := VM_UNMAPPED_AREA_TOPDOWN
        length := len
        lowLimit := max PAGE_SIZE start
        highLimit := min (k.archGetMmapBase (hint addr) mm.mmapBase) stop
        alignMask := 0
        alignOffset := 0 }
    if OnWrongSide flags found len then .error .wrongSide else .ok found

/-! ## The window -/

theorem le_max_left (x y : ULong) : x ≤ max x y := by
  unfold max
  split <;> bv_omega

theorem le_max_right (x y : ULong) : y ≤ max x y := by
  unfold max
  split <;> bv_omega

theorem max_lt {x y z : ULong} (hx : x < z) (hy : y < z) : max x y < z := by
  unfold max
  split
  · exact hx
  · exact hy

theorem min_le_right (x y : ULong) : min x y ≤ y := by
  unfold min
  split <;> bv_omega

/-- An error, or a range inside the window. -/
def InWindow (start stop len r : ULong) : Prop :=
  r = ENOMEM ∨ (start ≤ r ∧ r.toNat + len.toNat ≤ stop.toNat)

/-- An error, or a range that lies on its side of `KROOM_BASE_VA_4`. -/
def Separated (flags len r : ULong) : Prop :=
  r = ENOMEM ∨
    if Sampled flags then KROOM_BASE_VA_4 ≤ r ∧ r.toNat + len.toNat ≤ 2 ^ 64
    else r.toNat + len.toNat ≤ KROOM_BASE_VA_4.toNat

section Window

variable {k : Primitives} {mm : Mm} {addr len flags start stop r : ULong}

theorem mmapStart_le_mmapEnd (hend : KROOM_BASE_VA_4 < k.archGetMmapEnd addr len flags)
    (hmin : k.mmapMinAddr < KROOM_BASE_VA_4) : mmapStart k flags ≤ mmapEnd k addr len flags := by
  by_cases hs : Sampled flags
  · simp only [mmapStart, mmapEnd, hs, if_true]
    have hmax := max_lt (BitVec.lt_trans hmin hend) hend
    bv_omega
  · have hcut : min (k.archGetMmapEnd addr len flags) KROOM_BASE_VA_4 = KROOM_BASE_VA_4 := by
      have hge : ¬ k.archGetMmapEnd addr len flags < KROOM_BASE_VA_4 := by bv_omega
      simp [min, hge]
    simp only [mmapStart, mmapEnd, hs, if_false, hcut]
    bv_omega

/-- The window lies on one side. -/
theorem separated_of_inWindow
    (h : InWindow (mmapStart k flags) (mmapEnd k addr len flags) len r) : Separated flags len r := by
  rcases h with herr | ⟨hlow, hhigh⟩
  · exact Or.inl herr
  · refine Or.inr ?_
    by_cases hs : Sampled flags
    · simp only [mmapStart, mmapEnd, hs, if_true] at hlow hhigh ⊢
      have hbase := le_max_right k.mmapMinAddr KROOM_BASE_VA_4
      exact ⟨by bv_omega, by have := (k.archGetMmapEnd addr len flags).isLt; omega⟩
    · simp only [mmapEnd, hs, if_false] at hhigh ⊢
      have hbase := min_le_right (k.archGetMmapEnd addr len flags) KROOM_BASE_VA_4
      rw [BitVec.le_def] at hbase
      exact hhigh.trans hbase

/-- A search whose limits lie in the window. -/
theorem inWindow_of_search (hk : k.SearchesWithin) (mm : Mm) (info : Info) (hlow : start ≤ info.lowLimit)
    (hhigh : info.highLimit ≤ stop) :
    InWindow start stop info.length (k.vmUnmappedArea mm info) := by
  rcases hk mm info with herr | ⟨_, hge, hle⟩
  · exact Or.inl herr
  · rw [BitVec.le_def] at hhigh
    exact Or.inr ⟨BitVec.le_trans hlow hge, hle.trans hhigh⟩

/-- An accepted hint.  The subtraction in its test does not wrap, since `len` fits the window. -/
theorem inWindow_of_hintFits (hwin : start ≤ stop) (hlen : ¬ len > stop - start)
    (h : HintFits mm start stop addr len) : InWindow start stop len addr := by
  rcases h with ⟨hend, hstart, _, _⟩
  exact Or.inr ⟨hstart, by bv_omega⟩

theorem len_le_of_fits (hwin : start ≤ stop) (hlen : ¬ len > stop - start) : len ≤ stop := by
  bv_omega

theorem mmapEnd_le_of_unsampled (hs : ¬ Sampled flags) :
    mmapEnd k addr len flags ≤ KROOM_BASE_VA_4 := by
  simp only [mmapEnd, hs, if_false]
  exact min_le_right _ _

end Window

/-! ## The assertions -/

section Assertions

variable {k : Primitives} {len flags start stop found r : ULong}

theorem toNat_offsetInPage (a : ULong) : (offsetInPage a).toNat = a.toNat % 4096 := by
  have hmask : (PAGE_SIZE - 1).toNat = 2 ^ 12 - 1 := by decide
  rw [offsetInPage, BitVec.toNat_and, hmask, Nat.and_two_pow_sub_one_eq_mod]

theorem page_le_len (hlen : offsetInPage len = 0) (hpos : 0 < len) : 4096 ≤ len.toNat := by
  have hmod : len.toNat % 4096 = 0 := by
    rw [← toNat_offsetInPage, hlen]
    rfl
  have hne : 0 < len.toNat := by bv_omega
  omega

/-- `VM_BUG_ON` does not fire: an unaligned result of the first search is its error value. -/
theorem fallback_inWindow (hk : k.SearchesWithin) (mm : Mm)
    (hfound : found = ENOMEM ∨ offsetInPage found = 0) (hin : InWindow start stop len found) :
    ∃ r, fallback k mm start stop len found = .ok r ∧ InWindow start stop len r := by
  by_cases hoff : offsetInPage found = 0
  · exact ⟨found, by simp [fallback, hoff], hin⟩
  · obtain rfl : found = ENOMEM := hfound.resolve_right hoff
    refine ⟨_, rfl, ?_⟩
    exact inWindow_of_search hk mm _ (le_max_right _ _) (BitVec.le_refl _)

/-- The error value is on the right side as well: it is above `KROOM_BASE_VA_4`, and adding `len`
to it wraps to less than `len`. -/
theorem not_onWrongSide (hlen : offsetInPage len = 0) (hpos : 0 < len)
    (hfit : ¬ Sampled flags → len ≤ KROOM_BASE_VA_4) (h : Separated flags len r) :
    ¬ OnWrongSide flags r len := by
  have hpage : 4096 ≤ len.toNat := page_le_len hlen hpos
  by_cases hs : Sampled flags
  · simp only [OnWrongSide, hs, if_true]
    rcases h with rfl | h
    · decide
    · simp only [hs, if_true] at h
      exact BitVec.not_lt.2 h.1
  · simp only [OnWrongSide, hs, if_false]
    have hbase := hfit hs
    rcases h with rfl | h
    · unfold ENOMEM
      bv_omega
    · simp only [hs, if_false] at h
      bv_omega

end Assertions

/-! ## Separation -/

section Separation

variable {k : Primitives} {addr len flags : ULong}

theorem genericGetUnmappedArea_inWindow (hk : k.SearchesWithin) (mm : Mm)
    (hwin : mmapStart k flags ≤ mmapEnd k addr len flags) (hfixed : flags &&& MAP_FIXED = 0) :
    InWindow (mmapStart k flags) (mmapEnd k addr len flags) len
      (genericGetUnmappedArea k mm addr len flags) := by
  unfold genericGetUnmappedArea
  simp only [hfixed, ne_eq, not_true_eq_false, if_false]
  split
  · exact Or.inl rfl
  · split
    · exact inWindow_of_hintFits hwin (by assumption) (by tauto)
    · exact inWindow_of_search hk mm _ (le_max_left _ _) (BitVec.le_refl _)

theorem genericGetUnmappedAreaTopdown_inWindow (hk : k.SearchesWithin) (mm : Mm)
    (hwin : mmapStart k flags ≤ mmapEnd k addr len flags) (hfixed : flags &&& MAP_FIXED = 0)
    (hlen : offsetInPage len = 0) (hpos : 0 < len) :
    ∃ r, genericGetUnmappedAreaTopdown k mm addr len flags = .ok r ∧
      InWindow (mmapStart k flags) (mmapEnd k addr len flags) len r := by
  unfold genericGetUnmappedAreaTopdown
  simp only [hfixed, ne_eq, not_true_eq_false, if_false]
  split
  · exact ⟨_, rfl, Or.inl rfl⟩
  · split
    · exact ⟨_, rfl, inWindow_of_hintFits hwin (by assumption) (by tauto)⟩
    · rename_i hfits _
      -- The limits of the first search lie in the window, so its result does.
      let first : Info :=
        { flags := VM_UNMAPPED_AREA_TOPDOWN
          length := len
          lowLimit := max PAGE_SIZE (mmapStart k flags)
          highLimit := min (k.archGetMmapBase (hint addr) mm.mmapBase) (mmapEnd k addr len flags)
          alignMask := 0
          alignOffset := 0 }
      have hfirst := inWindow_of_search hk mm first (le_max_right _ _) (min_le_right _ _)
      have halign := (hk mm first).imp_right And.left
      obtain ⟨r, hr, hin⟩ := fallback_inWindow hk mm halign hfirst
      have hside : ¬ OnWrongSide flags r len := by
        refine not_onWrongSide hlen hpos ?_ (separated_of_inWindow hin)
        intro hs
        exact BitVec.le_trans (len_le_of_fits hwin hfits) (mmapEnd_le_of_unsampled hs)
      refine ⟨r, ?_, hin⟩
      change (fallback k mm _ _ len (k.vmUnmappedArea mm first) >>= _) = _
      rw [hr]
      exact if_neg hside

/-- Sampled mappings lie above `KROOM_BASE_VA_4` and all others below it, in both variants; the
assertions of the top-down variant hold, and neither of the two subtractions (in the test of the
length, and behind it in the test of the hint) wraps. -/
theorem mappings_separated (mm : Mm) (hend : KROOM_BASE_VA_4 < k.archGetMmapEnd addr len flags)
    (hmin : k.mmapMinAddr < KROOM_BASE_VA_4) (hk : k.SearchesWithin)
    (hlen : offsetInPage len = 0) (hpos : 0 < len) (hfixed : flags &&& MAP_FIXED = 0) :
    Separated flags len (genericGetUnmappedArea k mm addr len flags) ∧
      (∃ r, genericGetUnmappedAreaTopdown k mm addr len flags = .ok r ∧ Separated flags len r) ∧
      mmapStart k flags ≤ mmapEnd k addr len flags ∧
      (¬ len > mmapEnd k addr len flags - mmapStart k flags → len ≤ mmapEnd k addr len flags) := by
  have hwin := mmapStart_le_mmapEnd hend hmin
  refine ⟨separated_of_inWindow (genericGetUnmappedArea_inWindow hk mm hwin hfixed), ?_, hwin,
    len_le_of_fits hwin⟩
  obtain ⟨r, hr, hin⟩ := genericGetUnmappedAreaTopdown_inWindow hk mm hwin hfixed hlen hpos
  exact ⟨r, hr, separated_of_inWindow hin⟩

end Separation

/-- An address space with nothing in it, searched from its lower end. -/
def empty : Primitives where
  archGetMmapEnd := fun _ _ _ => 0x1000000000000#64
  archGetMmapBase := fun _ base => base
  mmapMinAddr := 0x8000#64
  taskUnmappedBase := 0x400000000000#64
  vmUnmappedArea := fun _ info =>
    let addr := pageAlign info.lowLimit
    if info.lowLimit ≤ addr ∧ addr.toNat + info.length.toNat ≤ info.highLimit.toNat then addr
    else ENOMEM

theorem offsetInPage_pageAlign (a : ULong) : offsetInPage (pageAlign a) = 0 := by
  have hmask : ~~~(PAGE_SIZE - 1) &&& (PAGE_SIZE - 1) = 0 := by decide
  rw [offsetInPage, pageAlign, BitVec.and_assoc, hmask]
  exact BitVec.and_zero

theorem empty_searchesWithin : empty.SearchesWithin := by
  intro mm info
  by_cases hfits : info.lowLimit ≤ pageAlign info.lowLimit ∧
      (pageAlign info.lowLimit).toNat + info.length.toNat ≤ info.highLimit.toNat
  · have hfound : empty.vmUnmappedArea mm info = pageAlign info.lowLimit := if_pos hfits
    rw [hfound]
    exact Or.inr ⟨offsetInPage_pageAlign _, hfits⟩
  · exact Or.inl (if_neg hfits)

/-- A sampled mapping of two pages, with a hint below `KROOM_BASE_VA_4` that is not taken. -/
theorem mappings_separated_sampled :
    genericGetUnmappedArea empty ⟨0x400000000000#64, []⟩ 0x7000000#64 0x2000#64 MAP_SAMPLED =
        KROOM_BASE_VA_4 ∧
      Separated MAP_SAMPLED 0x2000#64
        (genericGetUnmappedArea empty ⟨0x400000000000#64, []⟩ 0x7000000#64 0x2000#64 MAP_SAMPLED) :=
  ⟨by decide, (mappings_separated _ (by decide) (by decide) empty_searchesWithin (by decide)
    (by decide) (by decide)).1⟩

end UnmappedArea
end Kernel
end Shambles
