import Shambles.Jemalloc.Imalloc
import Shambles.Lru.Callback
import Shambles.Plugins.Config

/-!
# Reports — what a plugin learns from an allocation

Two questions about the reports of the entry points:

* what a failed call does to the plugin (every entry point reports after the attempt, whether it
  succeeded or not);
* whether an allocation the plugin regards as large has been given a page of its own and is
  reported with its full size (the threshold is read twice, under two names).
-/

namespace Shambles
namespace Jemalloc

open Plugins

/-! ## Failed calls -/

section Failed

open Lru

/-- `logAlloc` with the plugin loaded: before `malloc_init` is through it drops the report. -/
def delivered (a : Allocator) (answer : Answer) : List AllocEvent :=
  if a.initialized then answer.reports else []

/-- The plugin after a call. -/
def pluginAfter (config : CallbackConfig) (a : Allocator) (answer : Answer) (s : Lru.State) :
    Lru.State :=
  (delivered a answer).foldl (allocCallback config) s

/-- The region map, the lists, the counter and the trace of bindings are the same. -/
structure Untouched (s s' : Lru.State) : Prop where
  regions : s'.regions = s.regions
  links : s'.links = s.links
  mru : s'.mru = s.mru
  lru : s'.lru = s.lru
  freeFastChunks : s'.freeFastChunks = s.freeFastChunks
  trace : s'.trace = s.trace

theorem Untouched.refl (s : Lru.State) : Untouched s s :=
  ⟨rfl, rfl, rfl, rfl, rfl, rfl⟩

variable {a : Allocator} {sizeThresshold : Nat} {call : AllocCall}

/-- All of them but `je_realloc` report one allocation, of the size argument. -/
theorem reports_eq (hcall : ∀ size, call ≠ .reallocNull size) :
    (call.answer a sizeThresshold).reports =
      reportAlloc (call.answer a sizeThresshold).ptr call.size := by
  cases call with
  | malloc size =>
      simp only [AllocCall.answer, Imalloc.malloc]
      split <;> rfl
  | calloc num size => rfl
  | alignedAlloc alignment size => rfl
  | posixMemalign memptr alignment size => rfl
  | reallocNull size => exact absurd rfl (hcall size)

/-- NULL, or for `je_posix_memalign` whatever its caller had left there. -/
theorem ptr_of_failed (h : call.Failed (call.answer a sizeThresshold)) :
    (call.answer a sizeThresshold).ptr = call.unwritten a := by
  cases call with
  | posixMemalign memptr alignment size =>
      have herror := imalloc_error h
      cases hinit : a.initialized with
      | true => simpa [AllocCall.answer, AllocCall.unwritten, Imalloc.posixMemalign, hinit] using herror
      | false => simpa [AllocCall.answer, AllocCall.unwritten, Imalloc.posixMemalign, hinit] using herror
  | malloc size => exact h
  | calloc num size => exact h
  | alignedAlloc alignment size => exact h
  | reallocNull size => exact h

/-- A failed call leaves the plugin as it was exactly if its size argument is below the plugin's
threshold.  Else the plugin tracks a region that nobody allocated. -/
theorem failed_call_untouched_iff (config : CallbackConfig) (s : Lru.State) (a : Allocator)
    (sizeThresshold : Nat) (call : AllocCall) (hcall : ∀ size, call ≠ .reallocNull size)
    (hfail : call.Failed (call.answer a sizeThresshold)) :
    (Untouched s (pluginAfter config a (call.answer a sizeThresshold) s) ↔
        a.initialized = false ∨ call.size < config.sizeThresshold) ∧
      (a.initialized = true → config.sizeThresshold ≤ call.size →
        tracked (pluginAfter config a (call.answer a sizeThresshold) s) =
          {⟨call.unwritten a, call.size⟩} + tracked s) := by
  cases hinit : a.initialized with
  | false => simpa [pluginAfter, delivered, hinit] using Untouched.refl s
  | true =>
      have hafter : pluginAfter config a (call.answer a sizeThresshold) s =
          allocCallback config s ⟨.alloc, 0, call.unwritten a, call.size⟩ := by
        simp [pluginAfter, delivered, hinit, reports_eq hcall, reportAlloc, ptr_of_failed hfail]
      rw [hafter]
      refine ⟨?_, ?_⟩
      · by_cases hsize : config.sizeThresshold ≤ call.size
        · -- The new region is in the map, so the plugin has changed.
          have hne : ¬ Untouched s
              (allocCallback config s ⟨.alloc, 0, call.unwritten a, call.size⟩) := by
            intro h
            have hregions := h.regions
            simp [allocCallback, hsize, allocRegion_regions] at hregions
          simp [hne, hsize]
        · have hlt : call.size < config.sizeThresshold := by omega
          simpa [allocCallback, hsize, hlt] using Untouched.refl s
      · intro _ hsize
        simp [tracked_allocCallback, reported, hsize]

/-- An allocator that has run out of memory. -/
def exhausted : Allocator :=
  ⟨true, fun size _ => some size, fun _ _ => 0, fun _ => 0⟩

theorem failed_call_untouched_iff_malloc :
    (AllocCall.malloc 0x8000).Failed ((AllocCall.malloc 0x8000).answer exhausted 0x10000) ∧
      (Untouched (lruInit 1)
          (pluginAfter exampleConfig exhausted
            ((AllocCall.malloc 0x8000).answer exhausted 0x10000) (lruInit 1)) ↔
        exhausted.initialized = false ∨
          (AllocCall.malloc 0x8000).size < exampleConfig.sizeThresshold) :=
  ⟨by decide, (failed_call_untouched_iff exampleConfig (lruInit 1) exhausted 0x10000
    (.malloc 0x8000) (by intro size; exact AllocCall.noConfusion) (by decide)).1⟩

/-- `malloc(0x10000)` fails and the plugin tracks a region at NULL; `posix_memalign(&p, 3, 0x10000)`
is rejected and the plugin tracks a region where `p` happened to point. -/
theorem failed_call_tracked :
    ((AllocCall.malloc 0x10000).Failed ((AllocCall.malloc 0x10000).answer exhausted 0x10000) ∧
      ¬ Untouched (lruInit 1)
        (pluginAfter exampleConfig exhausted
          ((AllocCall.malloc 0x10000).answer exhausted 0x10000) (lruInit 1))) ∧
    ((AllocCall.posixMemalign 0x7000 3 0x10000).answer exhausted 0x10000).error = some .EINVAL ∧
      ¬ Untouched (lruInit 1)
        (pluginAfter exampleConfig exhausted
          ((AllocCall.posixMemalign 0x7000 3 0x10000).answer exhausted 0x10000) (lruInit 1)) :=
  ⟨⟨by decide, fun h => absurd h.regions (by decide)⟩, by decide,
    fun h => absurd h.regions (by decide)⟩

end Failed

/-! ## Large allocations -/

section Large

/-- The alignment asks for whole pages. -/
def PageAligned : Option DynamicOpts → Prop
  | some dopts => 0 < dopts.alignment ∧ 4096 ∣ dopts.alignment
  | none => False

instance : (opts : Option DynamicOpts) → Decidable (PageAligned opts)
  | some dopts => inferInstanceAs (Decidable (0 < dopts.alignment ∧ 4096 ∣ dopts.alignment))
  | none => isFalse id

/-- `malloc_conf_init` reads the threshold under a name of its own. -/
def jemallocThresshold (env : Environment) : Nat :=
  readSizeThresshold env "SHMBLES_SIZE_THRESHOLD"

namespace AllocCall

/-- An alignment, where there is one, is a power of two. -/
def PowerOfTwo : AllocCall → Prop
  | alignedAlloc alignment _ => ∃ k < 64, alignment = 2 ^ k
  | posixMemalign _ alignment _ => ∃ k < 64, alignment = 2 ^ k
  | _ => True

/-- What a plugin with this threshold needs of a call in this environment. -/
def AgreesOnLarge (env : Environment) (sizeThresshold : Nat) (a : Allocator) (call : AllocCall) :
    Prop :=
  sizeThresshold ≤ call.total →
    PageAligned (call.answer a (jemallocThresshold env)).opts ∧
      (call.answer a (jemallocThresshold env)).reports.map AllocEvent.size = [call.total]

/-- The allocator takes the call for a large one, or the caller asks for whole pages. -/
def AskedForPages (thr : Nat) : AllocCall → Prop
  | alignedAlloc alignment size => thr ≤ size ∨ 4096 ∣ alignment
  | posixMemalign _ alignment size => thr ≤ size ∨ 4096 ∣ alignment
  | call => thr ≤ call.size

def SingleItem : AllocCall → Prop
  | calloc num _ => num = 1
  | _ => True

end AllocCall

theorem realign_two_pow {k : Nat} (hk : k < 64) :
    0 < SHAMBLES_REALIGN (2 ^ k) ∧ 4096 ∣ SHAMBLES_REALIGN (2 ^ k) := by
  have hlt : 2 ^ k < 2 ^ 64 := Nat.pow_lt_pow_right (by decide) hk
  have hpos : 0 < 2 ^ k := Nat.two_pow_pos k
  simp only [SHAMBLES_REALIGN, ne_eq, hpos.ne', not_false_eq_true, if_true, ctz_two_pow hk,
    SHAMBLES_ALIGNMENT_SHIFT, Structures.wrap64, Nat.shiftLeft_eq]
  by_cases hle : 12 ≤ k
  · -- Nothing is added to an alignment of a page or more.
    have hdvd : 2 ^ 12 ∣ 2 ^ k := pow_dvd_pow 2 hle
    have hzero : 12 - k = 0 := by omega
    rw [hzero, pow_zero, mul_one, Nat.mod_eq_of_lt hlt]
    exact ⟨hpos, hdvd⟩
  · have hpage : 2 ^ k * 2 ^ (12 - k) = 4096 := by
      calc
        2 ^ k * 2 ^ (12 - k) = 2 ^ (k + (12 - k)) := (pow_add 2 k (12 - k)).symm
        _ = 2 ^ 12 := by rw [Nat.add_sub_cancel' (by omega)]
        _ = 4096 := by norm_num
    rw [hpage]
    decide

variable {env : Environment} {thr size : Nat} {dopts : DynamicOpts}

theorem pageAligned_large (h : dopts.alignment = Imalloc.largeAlignment thr size) :
    PageAligned (some dopts) ↔ thr ≤ size := by
  by_cases hle : thr ≤ size
  · simp only [PageAligned, h, Imalloc.largeAlignment, hle, if_true, iff_true]
    decide
  · simp [PageAligned, h, Imalloc.largeAlignment, hle]

theorem pageAligned_realigned {alignment k : Nat} (hk : k < 64) (hpow : alignment = 2 ^ k)
    (h : dopts.alignment = Imalloc.realignment thr alignment size) :
    PageAligned (some dopts) ↔ thr ≤ size ∨ 4096 ∣ alignment := by
  by_cases hle : thr ≤ size
  · simpa [PageAligned, h, Imalloc.realignment, hle, hpow] using realign_two_pow hk
  · have hpos : 0 < 2 ^ k := Nat.two_pow_pos k
    simp [PageAligned, h, Imalloc.realignment, hle, hpow, hpos]

/-- `imalloc` is asked for whole pages by its own threshold or by the caller. -/
theorem pageAligned_iff (a : Allocator) (call : AllocCall) (hpow : call.PowerOfTwo) :
    PageAligned (call.answer a thr).opts ↔ call.AskedForPages thr := by
  cases call with
  | malloc size =>
      simp only [AllocCall.answer, Imalloc.malloc]
      split
      · exact pageAligned_large rfl
      · -- The thread cache knows of no alignment.
        rename_i hfast
        have hlt : ¬ thr ≤ size := fun hle => hfast (Or.inl hle)
        simp [PageAligned, AllocCall.AskedForPages, AllocCall.size, hlt]
  | calloc num size => exact pageAligned_large rfl
  | alignedAlloc alignment size =>
      rcases hpow with ⟨k, hk, hpow⟩
      exact pageAligned_realigned hk hpow rfl
  | posixMemalign memptr alignment size =>
      rcases hpow with ⟨k, hk, hpow⟩
      exact pageAligned_realigned hk hpow rfl
  | reallocNull size => exact pageAligned_large rfl

theorem reported_size (a : Allocator) (call : AllocCall) :
    (call.answer a thr).reports.map AllocEvent.size = [call.size] := by
  cases call with
  | reallocNull size => rfl
  | malloc size =>
      rw [reports_eq (by intro size; exact AllocCall.noConfusion)]
      rfl
  | calloc num size => rfl
  | alignedAlloc alignment size => rfl
  | posixMemalign memptr alignment size => rfl

/-- A request that is not empty is for the size argument only if it is for one item. -/
theorem size_eq_total_iff (call : AllocCall) (h : 0 < call.total) :
    call.size = call.total ↔ call.SingleItem := by
  cases call with
  | calloc num size =>
      have hsize : 0 < size := Nat.pos_of_mul_pos_left h
      constructor
      · intro heq
        have hmul : num * size = 1 * size := by
          rw [one_mul]
          exact heq.symm
        exact Nat.eq_of_mul_eq_mul_right hsize hmul
      · intro hone
        simp [AllocCall.size, AllocCall.total, show num = 1 from hone]
  | malloc size => exact iff_of_true rfl trivial
  | alignedAlloc alignment size => exact iff_of_true rfl trivial
  | posixMemalign memptr alignment size => exact iff_of_true rfl trivial
  | reallocNull size => exact iff_of_true rfl trivial

/-- An allocation that the plugin regards as large is aligned and reported as the plugin needs it
exactly if the allocator, with its own threshold, takes the call for a large one (or was asked for
whole pages anyway) and `calloc` is asked for one item. -/
theorem agrees_on_large_iff (m : Machine) (env : Environment) {config : ShamblesPluginConfig}
    (hconfig : shamblesPluginConfigInit m env = some config) (a : Allocator) (call : AllocCall)
    (hpow : call.PowerOfTwo) :
    call.AgreesOnLarge env config.sizeThresshold a ↔
      call.total < config.sizeThresshold ∨
        call.AskedForPages (jemallocThresshold env) ∧ call.SingleItem := by
  rcases configInit_eq hconfig with ⟨_, rfl⟩
  have hpos := readSizeThresshold_pos env "SHAMBLES_SIZE_THRESHOLD"
  simp only [AllocCall.AgreesOnLarge, ← not_le, ← imp_iff_not_or]
  refine imp_congr_right ?_
  intro hlarge
  rw [pageAligned_iff a call hpow, reported_size, List.singleton_inj,
    size_eq_total_iff call (hpos.trans_le hlarge)]

/-- An allocator that finds a free block at `block`. -/
def servedAt (block : Nat) : Allocator :=
  ⟨true, fun size _ => some size, fun _ _ => block, fun _ => 0⟩

/-- In an empty environment `malloc` of 64 KiB is aligned and reported in full. -/
theorem agrees_on_large_malloc :
    ((AllocCall.malloc 0x10000).answer (servedAt 0x7f000000)
        (jemallocThresshold (Environment.of []))).ptr = 0x7f000000 ∧
      ((AllocCall.malloc 0x10000).AgreesOnLarge (Environment.of []) 0x10000 (servedAt 0x7f000000) ↔
        (AllocCall.malloc 0x10000).total < 0x10000 ∨
          (AllocCall.malloc 0x10000).AskedForPages (jemallocThresshold (Environment.of [])) ∧
            (AllocCall.malloc 0x10000).SingleItem) := by
  have hconfig : shamblesPluginConfigInit (Machine.upTo 0) (Environment.of []) =
      some ⟨0x10000, SIZE_T_MAX, SIZE_T_MAX, 2, 7, 0⟩ := by decide
  exact ⟨by decide, agrees_on_large_iff (Machine.upTo 0) (Environment.of []) hconfig
    (servedAt 0x7f000000) (.malloc 0x10000) trivial⟩

/-- With SHAMBLES_SIZE_THRESHOLD=0x1000 the allocator still uses 64 KiB: `aligned_alloc(64, 0x2000)`
is large for the plugin and gets an alignment of 64.  And `calloc(2, 0x8000)`, 64 KiB in all, is
reported with 32 KiB. -/
theorem not_agrees_on_large :
    ((∃ config, shamblesPluginConfigInit (Machine.upTo 0)
        (Environment.of [("SHAMBLES_SIZE_THRESHOLD", "0x1000")]) = some config ∧
        config.sizeThresshold = 0x1000) ∧
      ((AllocCall.alignedAlloc 64 0x2000).answer (servedAt 0x7f000040)
        (jemallocThresshold (Environment.of [("SHAMBLES_SIZE_THRESHOLD", "0x1000")]))).error = none ∧
      ¬ (AllocCall.alignedAlloc 64 0x2000).AgreesOnLarge
        (Environment.of [("SHAMBLES_SIZE_THRESHOLD", "0x1000")]) 0x1000 (servedAt 0x7f000040)) ∧
    ((∃ config, shamblesPluginConfigInit (Machine.upTo 0) (Environment.of []) = some config ∧
        config.sizeThresshold = 0x10000) ∧
      ((AllocCall.calloc 2 0x8000).answer (servedAt 0x7f000040)
        (jemallocThresshold (Environment.of []))).error = none ∧
      ¬ (AllocCall.calloc 2 0x8000).AgreesOnLarge (Environment.of []) 0x10000
        (servedAt 0x7f000040)) :=
  ⟨⟨⟨⟨0x1000, SIZE_T_MAX, SIZE_T_MAX, 2, 7, 0⟩, by decide, rfl⟩, by decide,
      fun h => absurd (h (by decide)).1 (by decide)⟩,
    ⟨⟨0x10000, SIZE_T_MAX, SIZE_T_MAX, 2, 7, 0⟩, by decide, rfl⟩, by decide,
      fun h => absurd (h (by decide)).2 (by decide)⟩

end Large

end Jemalloc
end Shambles
