import Shambles.Lib.Runs
import Shambles.Lru.Callback

/-!
# TrackedSet — the plugin's regions and the live allocations

jemalloc and the LRU plugin together: every call of an entry point changes the live allocations, and
its reports go through `allocCallback`.  The plugin is meant to track exactly the live allocations
that reach the threshold.

Whether a call keeps that up is a matter of balance: what it reports, together with what it releases,
has to make up what it allocates (`tracks_iff_balanced`).  Half of the entry points are balanced for
every argument; `CallOk` says for which arguments the others are.
-/

namespace Shambles
namespace Jemalloc

open Lru (CallbackConfig exampleConfig allocCallback tracked reported UniqueKeys)

structure Process where
  live : List Allocation
  plugin : Lru.State

/-- The allocations that are to be tracked. -/
def large (sizeThresshold : Nat) (allocations : Multiset Allocation) : Multiset Allocation :=
  allocations.filter fun a => sizeThresshold ≤ a.size

namespace Process

def start (fastChunks : Nat) : Process :=
  ⟨[], Lru.lruInit fastChunks⟩

def call (config : CallbackConfig) (s : Process) (c : Call) : Process :=
  ⟨c.outcome.liveAfter s.live, c.outcome.reports.foldl (allocCallback config) s.plugin⟩

/-- Each large live allocation is tracked once, with its start and its size, and nothing else is. -/
def Tracks (config : CallbackConfig) (s : Process) : Prop :=
  tracked s.plugin = large config.sizeThresshold s.live ∧ (tracked s.plugin).Nodup

def system (config : CallbackConfig) : System Process Call :=
  { enabled := fun s c => c.outcome.Admissible s.live
    step := fun s c => some (s.call config c) }

instance (config : CallbackConfig) (s : Process) (c : Call) :
    Decidable ((system config).enabled s c) :=
  inferInstanceAs (Decidable (c.outcome.Admissible s.live))

end Process

/-! ## Balance -/

section Balance

variable {config : CallbackConfig} {s : Process} {c : Call} {thr : Nat} {a b : Allocation}

theorem large_add (thr : Nat) (x y : Multiset Allocation) :
    large thr (x + y) = large thr x + large thr y :=
  Multiset.filter_add _ _ _

theorem large_singleton (thr : Nat) (a : Allocation) :
    large thr {a} = if thr ≤ a.size then {a} else 0 :=
  Multiset.filter_singleton _

theorem large_singleton_eq_zero : large thr {a} = 0 ↔ a.size < thr := by
  rw [large_singleton]
  split_ifs with h
  · simpa using h
  · simpa using h

theorem large_singleton_eq : large thr {a} = large thr {b} ↔
    a = b ∨ a.size < thr ∧ b.size < thr := by
  by_cases ha : thr ≤ a.size
  · by_cases hb : thr ≤ b.size
    · simp [large_singleton, ha, hb]
    · have hne : a ≠ b := fun hab => hb (hab ▸ ha)
      simp [large_singleton, ha, hb, hne]
  · have hzero : large thr {a} = 0 := large_singleton_eq_zero.2 (by omega)
    rw [hzero, eq_comm, large_singleton_eq_zero]
    constructor
    · intro hb
      exact Or.inr ⟨by omega, hb⟩
    · rintro (rfl | hb)
      · omega
      · exact hb.2

theorem reported_alloc (thr out size : Nat) :
    reported thr ⟨.alloc, 0, out, size⟩ = large thr {⟨out, size⟩} := by
  simp [reported, large_singleton]

/-- What a call releases and what it keeps. -/
theorem large_gone_add_kept (thr : Nat) (o : Outcome) (live : List Allocation) :
    large thr live = large thr (o.gone live) + large thr (o.kept live) := by
  have hsplit := Multiset.filter_add_not (fun a : Allocation => o.released = some a.start) live
  calc large thr live
      = large thr (Multiset.filter (fun a => o.released = some a.start) live +
          Multiset.filter (fun a => ¬ o.released = some a.start) live) := by rw [hsplit]
    _ = large thr (o.gone live) + large thr (o.kept live) := by
          rw [large_add, Multiset.filter_coe, Multiset.filter_coe]
          rfl

/-- The reports of a call make up for what it does. -/
def Balanced (thr : Nat) (o : Outcome) (live : List Allocation) : Prop :=
  (o.reports.map (reported thr)).sum + large thr (o.gone live) = large thr o.allocated.toList

theorem tracks_iff_balanced (h : tracked s.plugin = large config.sizeThresshold s.live)
    (hreports : ∀ e ∈ c.outcome.reports, e.type ≠ .free) :
    tracked (s.call config c).plugin = large config.sizeThresshold (s.call config c).live ↔
      Balanced config.sizeThresshold c.outcome s.live := by
  have hplugin : tracked (s.call config c).plugin =
      (c.outcome.reports.map (reported config.sizeThresshold)).sum +
        large config.sizeThresshold (c.outcome.gone s.live) +
        large config.sizeThresshold (c.outcome.kept s.live) := by
    rw [Process.call, Lru.tracked_allocCallbacks hreports, h, add_assoc, ← large_gone_add_kept]
  have hlive : large config.sizeThresshold (s.call config c).live =
      large config.sizeThresshold c.outcome.allocated.toList +
        large config.sizeThresshold (c.outcome.kept s.live) := by
    rw [Process.call, Outcome.liveAfter, ← Multiset.coe_add, large_add]
  rw [hplugin, hlive, Balanced]
  exact add_left_inj _

/-- A call that releases nothing. -/
theorem gone_none (live : List Allocation) (h : c.outcome.released = none) :
    c.outcome.gone live = [] := by
  simp [Outcome.gone, h]

/-- A call that releases `a` releases nothing else. -/
theorem gone_some {live : List Allocation} (hheap : HeapOk live) (ha : a ∈ live)
    (h : c.outcome.released = some a.start) : (c.outcome.gone live : Multiset Allocation) = {a} := by
  have hcount : Multiset.count a (live : Multiset Allocation) = 1 :=
    Multiset.count_eq_one_of_mem (Multiset.coe_nodup.2 hheap.nodup) (Multiset.mem_coe.2 ha)
  calc (c.outcome.gone live : Multiset Allocation)
      = Multiset.filter (fun b => c.outcome.released = some b.start) live :=
          (Multiset.filter_coe _ _).symm
    _ = Multiset.filter (fun b => b = a) live := by
          refine Multiset.filter_congr ?_
          intro b hb
          rw [h, Option.some.injEq]
          constructor
          · intro hab
            exact hheap.eq_of_start (Multiset.mem_coe.1 hb) ha hab.symm
          · rintro rfl
            rfl
    _ = {a} := by rw [Multiset.filter_eq', hcount, Multiset.replicate_one]

/-- A reported release takes exactly the released allocation from the tracked ones. -/
theorem getRegion_of_live (h : tracked s.plugin = large config.sizeThresshold s.live)
    (hheap : HeapOk s.live) (ha : a ∈ s.live) :
    (((Lru.getRegion s.plugin a.start).map fun r => Plugins.blockOf r.2).toList : Multiset Allocation) =
      large config.sizeThresshold {a} := by
  have hfound : ∀ r, Lru.getRegion s.plugin a.start = some r → Plugins.blockOf r.2 = a := by
    intro r hr
    rcases Lru.covers_of_getRegion hr with ⟨hmem, hle, hlt⟩
    rw [h] at hmem
    have hlive : Plugins.blockOf r.2 ∈ s.live := Multiset.mem_coe.1 (Multiset.mem_filter.1 hmem).1
    refine (hheap.eq_of_covers ha hlive hle ?_).symm
    exact hlt.trans_le (Nat.add_le_add_left (le_max_left _ _) _)
  by_cases hsize : config.sizeThresshold ≤ a.size
  · have hmem : a ∈ tracked s.plugin := by
      rw [h]
      exact Multiset.mem_filter.2 ⟨Multiset.mem_coe.2 ha, hsize⟩
    have hpos := config.sizeThresshold_pos
    have hsome := Lru.getRegion_isSome hmem le_rfl (by omega)
    rcases Option.isSome_iff_exists.1 hsome with ⟨r, hr⟩
    simp [hr, hfound r hr, large_singleton, hsize]
  · cases hr : Lru.getRegion s.plugin a.start with
    | none => simp [large_singleton, hsize]
    | some r =>
        have hmem := (Lru.covers_of_getRegion hr).1
        rw [h, hfound r hr] at hmem
        exact absurd (Multiset.mem_filter.1 hmem).2 hsize

/-- `free` and `delete` of a live allocation keep the balance. -/
theorem tracks_free (h : tracked s.plugin = large config.sizeThresshold s.live)
    (hheap : HeapOk s.live) (hkeys : UniqueKeys s.plugin) (ha : a ∈ s.live)
    (hreleased : c.outcome.released = some a.start) (hallocated : c.outcome.allocated = none)
    (hreports : c.outcome.reports = jeFree a.start) :
    tracked (s.call config c).plugin = large config.sizeThresshold (s.call config c).live := by
  have hevent : c.outcome.reports = [⟨.free, a.start, 0, 0⟩] := by
    simp [hreports, jeFree, hheap.nonnull a ha]
  have hplugin : tracked s.plugin = large config.sizeThresshold {a} +
      tracked (s.call config c).plugin := by
    have hfree : tracked s.plugin =
        ((Lru.getRegion s.plugin a.start).map fun r => Plugins.blockOf r.2).toList +
          tracked (allocCallback config s.plugin ⟨.free, a.start, 0, 0⟩) :=
      Lru.tracked_free hkeys rfl
    rw [getRegion_of_live h hheap ha] at hfree
    simpa [Process.call, hevent] using hfree
  have hlive : large config.sizeThresshold s.live = large config.sizeThresshold {a} +
      large config.sizeThresshold (s.call config c).live := by
    rw [large_gone_add_kept _ c.outcome, gone_some hheap ha hreleased]
    simp [Process.call, Outcome.liveAfter, hallocated]
  exact add_left_cancel (hplugin.symm.trans (h.trans hlive))

end Balance

/-! ## The calls that keep the balance -/

/-- What lives at `ptr`, if anything, is below the threshold. -/
def SmallAt (sizeThresshold : Nat) (live : List Allocation) (ptr : Nat) : Prop :=
  ∀ a ∈ live, a.start = ptr → a.size < sizeThresshold

instance (sizeThresshold : Nat) (live : List Allocation) (ptr : Nat) :
    Decidable (SmallAt sizeThresshold live ptr) :=
  inferInstanceAs (Decidable (∀ a ∈ live, a.start = ptr → a.size < sizeThresshold))

def CallOk (sizeThresshold : Nat) (live : List Allocation) : Call → Prop
  | .malloc _ _ | .posixMemalign _ _ | .alignedAlloc _ _ | .free _ | .delete _ => True
  | .calloc num size _ => num = 1 ∨ size < sizeThresshold ∧ num * size < sizeThresshold
  | .memalign size _ => size < sizeThresshold
  | .realloc ptr size ret =>
      size < sizeThresshold ∧ SmallAt sizeThresshold live ptr ∨
        (⟨ptr, size⟩ : Allocation) ∈ live ∧ ret = ptr
  | .dallocx ptr | .sdallocx ptr _ | .sizedDelete ptr _ => SmallAt sizeThresshold live ptr
  | .new _ size first _ | .alignedNew _ size first _ => first ≠ 0 ∨ size < sizeThresshold

instance (sizeThresshold : Nat) (live : List Allocation) :
    (c : Call) → Decidable (CallOk sizeThresshold live c)
  | .malloc _ _ | .posixMemalign _ _ | .alignedAlloc _ _ | .free _ | .delete _ => isTrue trivial
  | .calloc num size _ =>
      inferInstanceAs (Decidable (num = 1 ∨ size < sizeThresshold ∧ num * size < sizeThresshold))
  | .memalign size _ => inferInstanceAs (Decidable (size < sizeThresshold))
  | .realloc ptr size ret =>
      inferInstanceAs (Decidable (size < sizeThresshold ∧ SmallAt sizeThresshold live ptr ∨
        (⟨ptr, size⟩ : Allocation) ∈ live ∧ ret = ptr))
  | .dallocx ptr | .sdallocx ptr _ | .sizedDelete ptr _ =>
      inferInstanceAs (Decidable (SmallAt sizeThresshold live ptr))
  | .new _ size first _ | .alignedNew _ size first _ =>
      inferInstanceAs (Decidable (first ≠ 0 ∨ size < sizeThresshold))

section Calls

variable {thr : Nat} {live : List Allocation} {a : Allocation}

theorem smallAt_iff (hheap : HeapOk live) (ha : a ∈ live) :
    SmallAt thr live a.start ↔ a.size < thr := by
  constructor
  · intro h
    exact h a ha rfl
  · intro hsize b hb hstart
    rwa [hheap.eq_of_start hb ha hstart]

theorem smallAt_null (hheap : HeapOk live) : SmallAt thr live 0 :=
  fun a ha hnull => absurd hnull (hheap.nonnull a ha)

/-- One report with the right address and size. -/
theorem balanced_reportAlloc {o : Outcome} (out size : Nat) (hreleased : o.released = none)
    (hallocated : o.allocated = some ⟨out, size⟩) (hreports : o.reports = reportAlloc out size) :
    Balanced thr o live := by
  have hgone : o.gone live = [] := by simp [Outcome.gone, hreleased]
  rw [Balanced, hgone, hallocated, hreports]
  simp [reportAlloc, reported_alloc, large]

/-- Nothing the plugin takes notice of. -/
theorem balanced_silent {o : Outcome} (hreports : ∀ e ∈ o.reports, e.type ≠ .alloc) :
    Balanced thr o live ↔ large thr (o.gone live) = large thr o.allocated.toList := by
  have hzero : (o.reports.map (reported thr)).sum = 0 := by
    refine List.sum_eq_zero ?_
    intro x hx
    rcases List.mem_map.1 hx with ⟨e, he, rfl⟩
    simp [reported, hreports e he]
  rw [Balanced, hzero, zero_add]

theorem sum_reported_card {size : Nat} {events : List AllocEvent} (hsize : thr ≤ size)
    (h : ∀ e ∈ events, e.type = .alloc ∧ e.size = size) :
    (events.map (reported thr)).sum.card = events.length := by
  induction events with
  | nil => simp
  | cons e events ih =>
      have hhead := h e List.mem_cons_self
      have htail := ih fun e he => h e (List.mem_cons_of_mem _ he)
      simp [reported, hhead.1, hhead.2, hsize, htail, add_comm]

/-- More than one report of a large allocation is too much. -/
theorem balanced_repeated {o : Outcome} {ptr size : Nat} (hreleased : o.released = none)
    (hallocated : o.allocated = some ⟨ptr, size⟩)
    (hreports : ∀ e ∈ o.reports, e.type = .alloc ∧ e.size = size) (htwo : 2 ≤ o.reports.length) :
    Balanced thr o live ↔ size < thr := by
  have hgone : o.gone live = [] := by simp [Outcome.gone, hreleased]
  have hbalance : Balanced thr o live ↔
      (o.reports.map (reported thr)).sum = large thr {⟨ptr, size⟩} := by
    rw [Balanced, hgone, hallocated]
    simp [large]
  rw [hbalance]
  constructor
  · intro heq
    by_contra hsmall
    have hsize : thr ≤ size := Nat.le_of_not_lt hsmall
    have hcard := congrArg Multiset.card heq
    rw [sum_reported_card hsize hreports, large_singleton, if_pos hsize] at hcard
    simp at hcard
    omega
  · intro hsize
    rw [large_singleton_eq_zero.2 hsize]
    refine List.sum_eq_zero ?_
    intro x hx
    rcases List.mem_map.1 hx with ⟨e, he, rfl⟩
    simp [reported, hreports e he]
    omega

theorem balanced_calloc (hthr : 0 < thr) (num size ret : Nat) :
    Balanced thr (Call.calloc num size ret).outcome live ↔
      CallOk thr live (.calloc num size ret) := by
  -- The report carries the size of one element, the block has the size of all.
  have hone : (⟨ret, size⟩ : Allocation) = ⟨ret, num * size⟩ ↔ num = 1 ∨ size = 0 := by
    rw [Allocation.mk.injEq]
    constructor
    · rintro ⟨_, heq⟩
      rcases Nat.eq_zero_or_pos size with hzero | hpos
      · exact Or.inr hzero
      · exact Or.inl (Nat.eq_of_mul_eq_mul_right hpos (by omega))
    · rintro (rfl | rfl)
      · simp
      · simp
  have hbalance : Balanced thr (Call.calloc num size ret).outcome live ↔
      large thr {⟨ret, size⟩} = large thr {⟨ret, num * size⟩} := by
    rw [Balanced, gone_none live rfl]
    simp [Call.outcome, jeCalloc, reportAlloc, reported_alloc, large]
  rw [hbalance, large_singleton_eq, hone, CallOk]
  constructor
  · rintro ((rfl | rfl) | hsmall)
    · exact Or.inl rfl
    · exact Or.inr ⟨hthr, by simpa using hthr⟩
    · exact Or.inr hsmall
  · rintro (rfl | hsmall)
    · exact Or.inl (Or.inl rfl)
    · exact Or.inr hsmall

theorem balanced_memalign (size ret : Nat) :
    Balanced thr (Call.memalign size ret).outcome live ↔ CallOk thr live (.memalign size ret) := by
  rw [balanced_silent (by simp [Call.outcome, jeMemalign]), gone_none live rfl, eq_comm]
  exact large_singleton_eq_zero

/-- `dallocx`, `sdallocx` and the sized `delete` release without a report. -/
theorem balanced_unreported {c : Call} (hheap : HeapOk live) (ha : a ∈ live)
    (hreleased : c.outcome.released = some a.start) (hallocated : c.outcome.allocated = none)
    (hreports : c.outcome.reports = []) :
    Balanced thr c.outcome live ↔ SmallAt thr live a.start := by
  rw [balanced_silent (by simp [hreports]), gone_some hheap ha hreleased, hallocated,
    smallAt_iff hheap ha]
  exact large_singleton_eq_zero

theorem reports_realloc (ptr size ret : Nat) :
    jeRealloc ptr size ret = [⟨.realloc, ptr, ret, size⟩] := by
  simp [jeRealloc]

theorem balanced_realloc_null (hheap : HeapOk live) (size ret : Nat) :
    Balanced thr (Call.realloc 0 size ret).outcome live ↔
      CallOk thr live (.realloc 0 size ret) := by
  have hnull : (⟨0, size⟩ : Allocation) ∉ live := fun h => hheap.nonnull _ h rfl
  rw [balanced_silent (by simp [Call.outcome, reports_realloc]), gone_none live rfl, eq_comm]
  have hsmall : CallOk thr live (.realloc 0 size ret) ↔ size < thr := by
    simp [CallOk, smallAt_null hheap, hnull]
  rw [hsmall]
  exact large_singleton_eq_zero

/-- A reallocation is not followed: it must leave a large allocation as it is, and must not make
one. -/
theorem balanced_realloc (hthr : 0 < thr) (hheap : HeapOk live) (ha : a ∈ live) (size ret : Nat) :
    Balanced thr (Call.realloc a.start size ret).outcome live ↔
      CallOk thr live (.realloc a.start size ret) := by
  have hnonnull := hheap.nonnull a ha
  have hreleased : (Call.realloc a.start size ret).outcome.released = some a.start := by
    simp [Call.outcome, nonNull, hnonnull]
  have hsame : (⟨a.start, size⟩ : Allocation) ∈ live ↔ a = ⟨a.start, size⟩ := by
    constructor
    · exact fun h => hheap.eq_of_start ha h rfl
    · intro h
      rwa [← h]
  rw [balanced_silent (by simp [Call.outcome, reports_realloc]), gone_some hheap ha hreleased,
    CallOk, smallAt_iff hheap ha, hsame]
  by_cases hfreed : size = 0 ∧ ret = 0
  · -- realloc(ptr, 0) as a release
    rcases hfreed with ⟨rfl, rfl⟩
    have hallocated : (Call.realloc a.start 0 0).outcome.allocated = none := by
      simp [Call.outcome, hnonnull]
    have hzero : large thr (none : Option Allocation).toList = 0 := rfl
    rw [hallocated, hzero, large_singleton_eq_zero]
    simp [hthr, hnonnull.symm]
  · have hallocated : (Call.realloc a.start size ret).outcome.allocated = some ⟨ret, size⟩ := by
      simpa [Call.outcome, hnonnull] using hfreed
    have hequal : a = ⟨ret, size⟩ ↔ a = ⟨a.start, size⟩ ∧ ret = a.start := by
      constructor
      · rintro rfl
        exact ⟨rfl, rfl⟩
      · rintro ⟨ha, rfl⟩
        exact ha
    have hbalance : large thr {a} = large thr {⟨ret, size⟩} ↔ _ := large_singleton_eq
    rw [hallocated, ← hequal, and_comm, or_comm]
    exact hbalance

/-- Both kinds of `new`: one report if the first attempt succeeds, and too many otherwise. -/
theorem balanced_new {r : Option Nat × List AllocEvent} {size first : Nat}
    (hdirect : first ≠ 0 → r = (some first, reportAlloc first size))
    (hreports : ∀ e ∈ r.2, e.type = .alloc ∧ e.size = size)
    (hrepeated : first = 0 → ∀ ptr, r.1 = some ptr → ptr ≠ 0 → 2 ≤ r.2.length)
    (hret : r.1.getD 0 ≠ 0) :
    Balanced thr ⟨none, some ⟨r.1.getD 0, size⟩, r.2⟩ live ↔ first ≠ 0 ∨ size < thr := by
  by_cases hfirst : first = 0
  · rw [or_iff_right (not_not.2 hfirst)]
    rcases hptr : r.1 with _ | ptr
    · simp [hptr] at hret
    · have hne : ptr ≠ 0 := by simpa [hptr] using hret
      exact balanced_repeated rfl rfl hreports (hrepeated hfirst ptr hptr hne)
  · rw [hdirect hfirst]
    exact iff_of_true (balanced_reportAlloc first size rfl rfl rfl) (Or.inl hfirst)

/-- A release of NULL does nothing. -/
theorem balanced_null {o : Outcome} (hreleased : o.released = none) (hallocated : o.allocated = none)
    (hreports : o.reports = []) : Balanced thr o live := by
  have hgone : o.gone live = [] := by simp [Outcome.gone, hreleased]
  rw [Balanced, hgone, hallocated, hreports]
  simp

/-- The two calls that report a release. -/
def Call.reportsFree : Call → Bool
  | .free _ | .delete _ => true
  | _ => false

theorem reports_ne_free {c : Call} (h : c.reportsFree = false) :
    ∀ e ∈ c.outcome.reports, e.type ≠ .free := by
  intro e he
  cases c with
  | free ptr | delete ptr => simp [Call.reportsFree] at h
  | malloc | posixMemalign | alignedAlloc | calloc =>
      obtain rfl := List.mem_singleton.1 he
      simp
  | memalign | dallocx | sdallocx => cases he
  | realloc ptr size ret =>
      simp only [Call.outcome, reports_realloc, List.mem_singleton] at he
      simp [he]
  | sizedDelete ptr size => simp [Call.outcome, sizedDeleteImpl, jeSdallocx] at he
  | new isNoExcept size first answers => simp [(newImpl_reports e he).1]
  | alignedNew isNoExcept size first answers => simp [(alignedNewImpl_reports e he).1]

theorem balanced_iff {c : Call} (hthr : 0 < thr) (hheap : HeapOk live)
    (hadm : c.outcome.Admissible live) (hfree : c.reportsFree = false) :
    Balanced thr c.outcome live ↔ CallOk thr live c := by
  rcases hadm with ⟨hreleased, hallocated⟩
  cases c with
  | free ptr | delete ptr => simp [Call.reportsFree] at hfree
  | malloc size ret | posixMemalign size ret | alignedAlloc size ret =>
      exact iff_of_true (balanced_reportAlloc ret size rfl rfl rfl) trivial
  | calloc num size ret => exact balanced_calloc hthr num size ret
  | memalign size ret => exact balanced_memalign size ret
  | realloc ptr size ret =>
      by_cases hptr : ptr = 0
      · subst hptr
        exact balanced_realloc_null hheap size ret
      · rcases hreleased ptr (by simp [Call.outcome, nonNull, hptr]) with ⟨a, ha, rfl⟩
        exact balanced_realloc hthr hheap ha size ret
  | dallocx ptr =>
      rcases hreleased ptr rfl with ⟨a, ha, rfl⟩
      exact balanced_unreported hheap ha rfl rfl rfl
  | sdallocx ptr size =>
      rcases hreleased ptr rfl with ⟨a, ha, rfl⟩
      exact balanced_unreported hheap ha rfl rfl rfl
  | sizedDelete ptr size =>
      by_cases hptr : ptr = 0
      · subst hptr
        exact iff_of_true (balanced_null rfl rfl rfl) (smallAt_null hheap)
      · have hnonnull : nonNull ptr = some ptr := by simp [nonNull, hptr]
        rcases hreleased ptr hnonnull with ⟨a, ha, rfl⟩
        refine balanced_unreported hheap ha hnonnull rfl ?_
        simp [Call.outcome, sizedDeleteImpl, jeSdallocx]
  | new isNoExcept size first answers =>
      -- After a failed attempt the loop reports the block, and `newImpl` reports it again.
      refine balanced_new newImpl_of_ne newImpl_reports ?_ (hallocated _ rfl).1
      rintro rfl ptr hptr hne
      exact newImpl_length hptr hne
  | alignedNew isNoExcept size first answers =>
      refine balanced_new ?_ alignedNewImpl_reports ?_ (hallocated _ rfl).1
      · intro hfirst
        simp [alignedNewImpl, hfirst, jeAlignedAlloc]
      · rintro rfl ptr hptr hne
        exact alignedNewImpl_length hptr hne

end Calls

/-! ## The tracked set -/

section TrackedSet

variable {config : CallbackConfig} {s : Process} {c : Call}

/-- `free` and `delete`, of NULL or of a live allocation. -/
theorem tracks_release {ptr : Nat} (h : tracked s.plugin = large config.sizeThresshold s.live)
    (hheap : HeapOk s.live) (hkeys : UniqueKeys s.plugin)
    (hadm : c.outcome.Admissible s.live) (hreleased : c.outcome.released = nonNull ptr)
    (hallocated : c.outcome.allocated = none) (hreports : c.outcome.reports = jeFree ptr) :
    tracked (s.call config c).plugin = large config.sizeThresshold (s.call config c).live := by
  by_cases hptr : ptr = 0
  · have hnone : c.outcome.released = none := by simp [hreleased, nonNull, hptr]
    have hempty : c.outcome.reports = [] := by simp [hreports, jeFree, hptr]
    refine (tracks_iff_balanced h ?_).2 (balanced_null hnone hallocated hempty)
    simp [hempty]
  · have hsome : c.outcome.released = some ptr := by simp [hreleased, nonNull, hptr]
    rcases hadm.1 ptr hsome with ⟨a, ha, rfl⟩
    exact tracks_free h hheap hkeys ha hsome hallocated hreports

theorem tracks_call_iff (h : tracked s.plugin = large config.sizeThresshold s.live)
    (hheap : HeapOk s.live) (hkeys : UniqueKeys s.plugin) (hadm : c.outcome.Admissible s.live) :
    tracked (s.call config c).plugin = large config.sizeThresshold (s.call config c).live ↔
      CallOk config.sizeThresshold s.live c := by
  cases hfree : c.reportsFree with
  | false =>
      exact (tracks_iff_balanced h (reports_ne_free hfree)).trans
        (balanced_iff config.sizeThresshold_pos hheap hadm hfree)
  | true =>
      cases c with
      | free ptr | delete ptr =>
          exact iff_of_true (tracks_release h hheap hkeys hadm rfl rfl rfl) trivial
      | _ => simp [Call.reportsFree] at hfree

theorem nodup_of_tracks (h : tracked s.plugin = large config.sizeThresshold s.live)
    (hheap : HeapOk s.live) : (tracked s.plugin).Nodup := by
  rw [h]
  exact (Multiset.coe_nodup.2 hheap.nodup).filter _

def Process.StepOk (config : CallbackConfig) (s : Process) (c : Call) : Prop :=
  CallOk config.sizeThresshold s.live c

instance (config : CallbackConfig) (s : Process) (c : Call) :
    Decidable (((Process.system config).restrict (Process.StepOk config)).enabled s c) :=
  inferInstanceAs (Decidable (c.outcome.Admissible s.live ∧ CallOk config.sizeThresshold s.live c))

/-- What every sequence of calls keeps up. -/
structure Sound (fastChunks : Nat) (s : Process) : Prop where
  heap : HeapOk s.live
  keys : UniqueKeys s.plugin
  plugin : ∃ es, Run Lru.system (Lru.lruInit fastChunks) es s.plugin

namespace Sound

variable {fastChunks : Nat}

theorem start : Sound fastChunks (Process.start fastChunks) :=
  ⟨HeapOk.nil, List.nodup_nil, [], Run.nil⟩

theorem call (h : Sound fastChunks s) (hadm : c.outcome.Admissible s.live) :
    Sound fastChunks (s.call config c) := by
  rcases h.plugin with ⟨es, hrun⟩
  exact ⟨h.heap.step hadm, h.keys.allocCallbacks, Lru.run_allocCallbacks hrun h.keys⟩

/-- Whatever is called, the plugin goes through states of its own system. -/
theorem run {cs : List Call}
    (h : Run (Process.system config) (Process.start fastChunks) cs s) : Sound fastChunks s := by
  refine Run.invariant_state start ?_ h
  intro s c s' hs hadm hstep
  obtain rfl := Option.some.inj hstep
  exact hs.call hadm

end Sound

theorem tracks_run {fastChunks : Nat} {cs : List Call}
    (h : Run ((Process.system config).restrict (Process.StepOk config))
      (Process.start fastChunks) cs s) :
    tracked s.plugin = large config.sizeThresshold s.live := by
  have hboth : Sound fastChunks s ∧ tracked s.plugin = large config.sizeThresshold s.live := by
    refine Run.invariant_state (P := fun s => Sound fastChunks s ∧
      tracked s.plugin = large config.sizeThresshold s.live) ⟨Sound.start, rfl⟩ ?_ h
    intro s c s' hs hen hstep
    obtain rfl := Option.some.inj hstep
    exact ⟨hs.1.call hen.1,
      (tracks_call_iff hs.2 hs.1.heap hs.1.keys hen.1).2 hen.2⟩
  exact hboth.2

/-- As long as all calls are `StepOk`, the plugin tracks exactly the large live allocations; and the
first call that is not puts an end to it. -/
theorem tracks_exactly {fastChunks : Nat} {cs : List Call}
    (h : Run ((Process.system config).restrict (Process.StepOk config))
      (Process.start fastChunks) cs s) :
    s.Tracks config ∧ ∀ c, c.outcome.Admissible s.live →
      ((s.call config c).Tracks config ↔ Process.StepOk config s c) := by
  have hsound := Sound.run h.of_restrict
  have htracks := tracks_run h
  refine ⟨⟨htracks, nodup_of_tracks htracks hsound.heap⟩, ?_⟩
  intro c hadm
  have hiff := tracks_call_iff htracks hsound.heap hsound.keys hadm
  constructor
  · intro hafter
    exact hiff.1 hafter.1
  · intro hok
    have hafter := hiff.2 hok
    exact ⟨hafter, nodup_of_tracks hafter (hsound.call hadm).heap⟩

theorem tracks_exactly_mixed :
    ∃ s, Run ((Process.system exampleConfig).restrict (Process.StepOk exampleConfig))
        (Process.start 1)
        [.malloc 0x20000 0x100000, .malloc 100 0x200000, .realloc 0x200000 200 0x300000,
          .calloc 1 0x10000 0x400000, .free 0x100000, .sizedDelete 0x300000 200] s ∧
      s.live = [⟨0x400000, 0x10000⟩] ∧ s.Tracks exampleConfig := by
  rcases Run.of_exec ((Process.system exampleConfig).restrict (Process.StepOk exampleConfig))
    (Process.start 1)
    [.malloc 0x20000 0x100000, .malloc 100 0x200000, .realloc 0x200000 200 0x300000,
      .calloc 1 0x10000 0x400000, .free 0x100000, .sizedDelete 0x300000 200] (by decide) with
    ⟨s, hs, hrun⟩
  obtain rfl := Option.some.inj hs
  exact ⟨_, hrun, by decide, (tracks_exactly hrun).1⟩

/-- `realloc` moves the only live allocation, and the plugin keeps the old one. -/
theorem realloc_not_tracked :
    ∃ s, Run (Process.system exampleConfig) (Process.start 1)
        [.malloc 0x10000 0x100000, .realloc 0x100000 0x20000 0x200000] s ∧
      s.live = [⟨0x200000, 0x20000⟩] ∧ tracked s.plugin = {⟨0x100000, 0x10000⟩} ∧
      ¬ s.Tracks exampleConfig := by
  rcases Run.of_exec (Process.system exampleConfig) (Process.start 1)
    [.malloc 0x10000 0x100000, .realloc 0x100000 0x20000 0x200000] (by decide) with ⟨s, hs, hrun⟩
  obtain rfl := Option.some.inj hs
  refine ⟨_, hrun, by decide, by decide, ?_⟩
  intro htracks
  exact absurd htracks.1 (by decide)

end TrackedSet

end Jemalloc
end Shambles
