import Shambles.Jemalloc.LogAlloc

/-!
# EntryPoints — what the allocation functions do and what they report

Each exported function of `jemalloc.c` and each C++ operator is modelled by the calls of `logAlloc`
it makes.  Which address an allocation gets is the allocator's choice, so the results of the
internal allocations are arguments here, 0 for a failure; the alignment only influences that
choice and is left out.

`Call.outcome` sets the reports beside what the call does to the live allocations.
-/

namespace Shambles
namespace Jemalloc

/-- A live allocation, with the byte count that was asked for. -/
structure Allocation where
  start : Nat
  size : Nat
  deriving DecidableEq, Repr

namespace Allocation

/-- The bytes no other allocation overlaps: an empty allocation has an address of its own. -/
def span (a : Allocation) : Nat :=
  max a.size 1

def Apart (a b : Allocation) : Prop :=
  a.start + a.span ≤ b.start ∨ b.start + b.span ≤ a.start

instance (a b : Allocation) : Decidable (a.Apart b) :=
  inferInstanceAs (Decidable (_ ∨ _))

instance : Std.Symm Apart :=
  ⟨fun _ _ h => h.symm⟩

end Allocation

/-! ## `jemalloc.c` -/

def reportAlloc (out size : Nat) : List AllocEvent :=
  [⟨.alloc, 0, out, size⟩]

def jeMalloc (size ptr : Nat) : List AllocEvent :=
  reportAlloc ptr size

def jePosixMemalign (size memptr : Nat) : List AllocEvent :=
  reportAlloc memptr size

def jeAlignedAlloc (size ret : Nat) : List AllocEvent :=
  reportAlloc ret size

/-- The report carries the size of one item, not of all `num` of them. -/
def jeCalloc (_num size ret : Nat) : List AllocEvent :=
  reportAlloc ret size

/-- Unlike the other aligned allocations, `je_memalign` makes no report. -/
def jeMemalign (_size _ret : Nat) : List AllocEvent :=
  []

def jeRealloc (ptr size ret : Nat) : List AllocEvent :=
  if ptr ≠ 0 ∧ size ≠ 0 then
    [⟨.realloc, ptr, ret, size⟩]
  else if ptr ≠ 0 ∧ size = 0 then
    [⟨.realloc, ptr, ret, size⟩]
  else
    -- realloc(NULL, size) is equivalent to malloc(size), but is not reported as such.
    [⟨.realloc, ptr, ret, size⟩]

def jeFree (ptr : Nat) : List AllocEvent :=
  if ptr ≠ 0 then [⟨.free, ptr, 0, 0⟩] else []

def jeDallocx (_ptr : Nat) : List AllocEvent :=
  []

def jeSdallocx (_ptr _size : Nat) : List AllocEvent :=
  []

/-! ## `jemalloc_cpp.cpp` -/

/-- The loop over the new-handler: `answers` are the results of its `je_malloc` calls, and the loop
ends without one when there is no handler or the handler throws.  Without memory it throws, which is
`none`, unless `nothrow` is set.  `opt_experimental_infallible_new` is off, as it is by default. -/
def handleOOM (nothrow : Bool) (size : Nat) : List Nat → Option Nat × List AllocEvent
  | [] => (if nothrow then some 0 else none, [])
  | ptr :: answers =>
      if ptr ≠ 0 then
        (some ptr, jeMalloc size ptr)
      else
        let r := handleOOM nothrow size answers
        (r.1, jeMalloc size ptr ++ r.2)

theorem handleOOM_reports {nothrow : Bool} {size : Nat} {answers : List Nat} :
    ∀ e ∈ (handleOOM nothrow size answers).2, e.type = .alloc ∧ e.size = size := by
  induction answers with
  | nil => simp [handleOOM]
  | cons ptr answers ih =>
      by_cases hptr : ptr = 0
      · simpa [handleOOM, hptr, jeMalloc, reportAlloc] using ih
      · simp [handleOOM, hptr, jeMalloc, reportAlloc]

/-- An allocation that the loop returns has been reported by `je_malloc`. -/
theorem handleOOM_length {nothrow : Bool} {size ptr : Nat} {answers : List Nat}
    (h : (handleOOM nothrow size answers).1 = some ptr) (hptr : ptr ≠ 0) :
    1 ≤ (handleOOM nothrow size answers).2.length := by
  cases answers with
  | nil =>
      cases nothrow with
      | false => cases h
      | true => exact absurd (Option.some.inj h).symm hptr
  | cons first answers =>
      by_cases hfirst : first = 0
      · simp [handleOOM, hfirst, jeMalloc, reportAlloc]
      · simp [handleOOM, hfirst, jeMalloc, reportAlloc]

/-- `first` is the result of `imalloc_fastpath` short of `handleOOM`. -/
def newImpl (isNoExcept : Bool) (size first : Nat) (answers : List Nat) :
    Option Nat × List AllocEvent :=
  let r := if first ≠ 0 then (some first, []) else handleOOM isNoExcept size answers
  match r.1 with
  | some ptr => (some ptr, r.2 ++ reportAlloc ptr size)
  | none => (none, r.2) -- the exception leaves before the report

def alignedNewImpl (isNoExcept : Bool) (size first : Nat) (answers : List Nat) :
    Option Nat × List AllocEvent :=
  if first ≠ 0 then
    (some first, jeAlignedAlloc size first)
  else
    let r := handleOOM isNoExcept size answers
    (r.1, jeAlignedAlloc size first ++ r.2)

section New

variable {isNoExcept : Bool} {size first ptr : Nat} {answers : List Nat}

theorem newImpl_of_ne (hfirst : first ≠ 0) :
    newImpl isNoExcept size first answers = (some first, reportAlloc first size) := by
  simp [newImpl, hfirst]

/-- A first attempt that fails: the loop, and one report more if it returns. -/
theorem newImpl_zero : newImpl isNoExcept size 0 answers =
    ((handleOOM isNoExcept size answers).1, (handleOOM isNoExcept size answers).2 ++
      (handleOOM isNoExcept size answers).1.toList.flatMap fun ptr => reportAlloc ptr size) := by
  cases h : (handleOOM isNoExcept size answers).1 with
  | none => simp [newImpl, h]
  | some ptr => simp [newImpl, h]

theorem newImpl_reports :
    ∀ e ∈ (newImpl isNoExcept size first answers).2, e.type = .alloc ∧ e.size = size := by
  intro e he
  by_cases hfirst : first = 0
  · rw [hfirst, newImpl_zero] at he
    rcases List.mem_append.1 he with he | he
    · exact handleOOM_reports e he
    · rcases List.mem_flatMap.1 he with ⟨ptr, _, he⟩
      obtain rfl := List.mem_singleton.1 he
      exact ⟨rfl, rfl⟩
  · rw [newImpl_of_ne hfirst] at he
    obtain rfl := List.mem_singleton.1 he
    exact ⟨rfl, rfl⟩

theorem alignedNewImpl_reports :
    ∀ e ∈ (alignedNewImpl isNoExcept size first answers).2, e.type = .alloc ∧ e.size = size := by
  intro e he
  have hreport : ∀ ptr, ∀ e ∈ jeAlignedAlloc size ptr, e.type = .alloc ∧ e.size = size := by
    intro ptr e he
    obtain rfl := List.mem_singleton.1 he
    exact ⟨rfl, rfl⟩
  by_cases hfirst : first ≠ 0
  · rw [alignedNewImpl, if_pos hfirst] at he
    exact hreport first e he
  · rw [alignedNewImpl, if_neg hfirst] at he
    rcases List.mem_append.1 he with he | he
    · exact hreport first e he
    · exact handleOOM_reports e he

/-- An allocation from the loop is reported in `je_malloc` and again by the operator. -/
theorem newImpl_length (h : (newImpl isNoExcept size 0 answers).1 = some ptr) (hptr : ptr ≠ 0) :
    2 ≤ (newImpl isNoExcept size 0 answers).2.length := by
  rw [newImpl_zero] at h ⊢
  have hlength := handleOOM_length h hptr
  simp only at h
  simp [h, reportAlloc]
  omega

/-- Here the failure before the loop is reported as well. -/
theorem alignedNewImpl_length (h : (alignedNewImpl isNoExcept size 0 answers).1 = some ptr)
    (hptr : ptr ≠ 0) : 2 ≤ (alignedNewImpl isNoExcept size 0 answers).2.length := by
  have hlength : 1 ≤ (handleOOM isNoExcept size answers).2.length := handleOOM_length h hptr
  simp [alignedNewImpl, jeAlignedAlloc, reportAlloc]
  omega

end New

def operatorDelete (ptr : Nat) : List AllocEvent :=
  jeFree ptr

def sizedDeleteImpl (ptr size : Nat) : List AllocEvent :=
  if ptr = 0 then [] else jeSdallocx ptr size

/-! ## Calls -/

/-- A call of an entry point, with the answers of the allocator. -/
inductive Call where
  | malloc (size ret : Nat)
  | posixMemalign (size ret : Nat)
  | alignedAlloc (size ret : Nat)
  | calloc (num size ret : Nat)
  | memalign (size ret : Nat)
  | realloc (ptr size ret : Nat)
  | free (ptr : Nat)
  | dallocx (ptr : Nat)
  | sdallocx (ptr size : Nat)
  | new (isNoExcept : Bool) (size first : Nat) (answers : List Nat)
  | alignedNew (isNoExcept : Bool) (size first : Nat) (answers : List Nat)
  | delete (ptr : Nat)
  | sizedDelete (ptr size : Nat)
  deriving DecidableEq, Repr

structure Outcome where
  released : Option Nat
  allocated : Option Allocation
  reports : List AllocEvent
  deriving DecidableEq, Repr

/-- NULL is nothing to release. -/
def nonNull (ptr : Nat) : Option Nat :=
  if ptr = 0 then none else some ptr

namespace Call

def outcome : Call → Outcome
  | malloc size ret => ⟨none, some ⟨ret, size⟩, jeMalloc size ret⟩
  | posixMemalign size ret => ⟨none, some ⟨ret, size⟩, jePosixMemalign size ret⟩
  | alignedAlloc size ret => ⟨none, some ⟨ret, size⟩, jeAlignedAlloc size ret⟩
  | calloc num size ret => ⟨none, some ⟨ret, num * size⟩, jeCalloc num size ret⟩
  | memalign size ret => ⟨none, some ⟨ret, size⟩, jeMemalign size ret⟩
  | realloc ptr size ret =>
      -- realloc(ptr, 0) may free and return NULL, or return an empty allocation.
      ⟨nonNull ptr, if ptr ≠ 0 ∧ size = 0 ∧ ret = 0 then none else some ⟨ret, size⟩,
        jeRealloc ptr size ret⟩
  | free ptr => ⟨nonNull ptr, none, jeFree ptr⟩
  | dallocx ptr => ⟨some ptr, none, jeDallocx ptr⟩
  | sdallocx ptr size => ⟨some ptr, none, jeSdallocx ptr size⟩
  | new isNoExcept size first answers =>
      -- NULL stands for what a call that throws does not return.
      let r := newImpl isNoExcept size first answers
      ⟨none, some ⟨r.1.getD 0, size⟩, r.2⟩
  | alignedNew isNoExcept size first answers =>
      let r := alignedNewImpl isNoExcept size first answers
      ⟨none, some ⟨r.1.getD 0, size⟩, r.2⟩
  | delete ptr => ⟨nonNull ptr, none, operatorDelete ptr⟩
  | sizedDelete ptr size => ⟨nonNull ptr, none, sizedDeleteImpl ptr size⟩

end Call

/-! ## The live allocations -/

namespace Outcome

/-- The live allocations that the call releases, at most one. -/
def gone (o : Outcome) (live : List Allocation) : List Allocation :=
  live.filter fun a => o.released = some a.start

def kept (o : Outcome) (live : List Allocation) : List Allocation :=
  live.filter fun a => o.released ≠ some a.start

def liveAfter (o : Outcome) (live : List Allocation) : List Allocation :=
  o.allocated.toList ++ o.kept live

/-- A successful call: what it releases is live, and what it returns is not NULL, lies inside the
address space and overlaps nothing that stays live. -/
def Admissible (o : Outcome) (live : List Allocation) : Prop :=
  (∀ p ∈ o.released, ∃ a ∈ live, a.start = p) ∧
    ∀ a ∈ o.allocated, a.start ≠ 0 ∧ a.start + a.span ≤ 2 ^ 64 ∧ ∀ b ∈ o.kept live, a.Apart b

instance (o : Outcome) (live : List Allocation) : Decidable (o.Admissible live) :=
  inferInstanceAs (Decidable (_ ∧ _))

end Outcome

/-- No two live allocations overlap. -/
structure HeapOk (live : List Allocation) : Prop where
  apart : live.Pairwise Allocation.Apart
  nonnull : ∀ a ∈ live, a.start ≠ 0

namespace HeapOk

variable {live : List Allocation} {o : Outcome}

theorem nil : HeapOk [] :=
  ⟨List.Pairwise.nil, by simp⟩

theorem step (h : HeapOk live) (hadm : o.Admissible live) : HeapOk (o.liveAfter live) := by
  have hkept : (o.kept live).Pairwise Allocation.Apart := h.apart.filter _
  have hnonnull : ∀ a ∈ o.kept live, a.start ≠ 0 :=
    fun a ha => h.nonnull a (List.mem_filter.1 ha).1
  cases hnew : o.allocated with
  | none => simpa [Outcome.liveAfter, hnew] using HeapOk.mk hkept hnonnull
  | some a =>
      rcases hadm.2 a hnew with ⟨hstart, _, hapart⟩
      have hafter : o.liveAfter live = a :: o.kept live := by simp [Outcome.liveAfter, hnew]
      rw [hafter]
      refine ⟨List.pairwise_cons.2 ⟨hapart, hkept⟩, ?_⟩
      intro b hb
      rcases List.mem_cons.1 hb with rfl | hb
      · exact hstart
      · exact hnonnull b hb

/-- The byte at the start of a live allocation belongs to no other one. -/
theorem eq_of_covers (h : HeapOk live) {a b : Allocation} (ha : a ∈ live) (hb : b ∈ live)
    (hle : b.start ≤ a.start) (hlt : a.start < b.start + b.span) : a = b := by
  by_contra hne
  have hpos : 0 < a.span := by simp [Allocation.span]
  rcases h.apart.forall ha hb hne with hab | hba
  · omega
  · omega

theorem eq_of_start (h : HeapOk live) {a b : Allocation} (ha : a ∈ live) (hb : b ∈ live)
    (hstart : a.start = b.start) : a = b := by
  have hpos : 0 < b.span := by simp [Allocation.span]
  exact h.eq_of_covers ha hb (by omega) (by omega)

theorem nodup (h : HeapOk live) : live.Nodup := by
  refine h.apart.imp ?_
  rintro a b hab rfl
  have hpos : 0 < a.span := by simp [Allocation.span]
  rcases hab with hab | hab
  · omega
  · omega

end HeapOk

end Jemalloc
end Shambles
