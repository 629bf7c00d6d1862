import Shambles.Pages.StaticFractional
import Shambles.Pages.Window
import Shambles.Plugins.Config

/-!
# Starts — do all bindings start on a page?

`mbind` rejects a range that does not start on a page.  Nothing in the configuration rounds to
pages: the chunk size is taken as it is given, or is a quotient of two given numbers, and the split
of the static-fractional plugin is a number of bytes.

For page-aligned allocations this module says exactly when all bindings of a run start on pages:
for the migration plugins when every region has one chunk only or the chunk size is a multiple of
the page size, for the static-fractional plugin when every split leaves whole pages.
-/

namespace Shambles
namespace Plugins

open Structures StaticFractional

/-! ## The chunk table -/

section ChunkTable

variable {chunkSize addr size : Nat}

/-- The chunks start at the multiples of the chunk size below the end. -/
theorem forall_chunkTable_start {Q : Nat → Prop} (hpos : 0 < chunkSize)
    (hend : addr + size ≤ 2 ^ 64) :
    (∀ c ∈ chunkTable chunkSize addr size, Q c.start) ↔
      ∀ i, i * chunkSize < size → Q (addr + i * chunkSize) := by
  have hdiv : size / chunkSize * chunkSize + size % chunkSize = size := Nat.div_add_mod' _ _
  rw [chunkTable_eq hpos hend, List.forall_mem_append]
  constructor
  · rintro ⟨hfull, hrest⟩ i hi
    have hle : i ≤ size / chunkSize := (Nat.le_div_iff_mul_le hpos).2 (Nat.le_of_lt hi)
    rcases Nat.lt_or_eq_of_le hle with hlt | rfl
    · exact hfull ⟨addr + i * chunkSize, chunkSize⟩
        (List.mem_map.2 ⟨i, List.mem_range.2 hlt, rfl⟩)
    · have hmod : size % chunkSize ≠ 0 := by omega
      rw [if_pos hmod] at hrest
      exact hrest _ (List.mem_singleton.2 rfl)
  · intro hall
    refine ⟨?_, ?_⟩
    · intro c hc
      rcases List.mem_map.1 hc with ⟨i, hi, rfl⟩
      have hsucc : (i + 1) * chunkSize ≤ size / chunkSize * chunkSize :=
        Nat.mul_le_mul_right _ (List.mem_range.1 hi)
      rw [Nat.succ_mul] at hsucc
      exact hall i (by omega)
    · intro c hc
      split at hc
      · obtain rfl := List.mem_singleton.1 hc
        exact hall _ (by omega)
      · simp at hc

/-- With more than one chunk, the second one decides. -/
theorem chunkTable_on_pages_iff (hpos : 0 < chunkSize) (hend : addr + size ≤ 2 ^ 64)
    (haddr : PAGE_SIZE ∣ addr) :
    (∀ c ∈ chunkTable chunkSize addr size, PAGE_SIZE ∣ c.start) ↔
      size ≤ chunkSize ∨ PAGE_SIZE ∣ chunkSize := by
  rw [forall_chunkTable_start hpos hend]
  constructor
  · intro hall
    rcases Nat.lt_or_ge chunkSize size with hlt | hge
    · have hsecond := hall 1 (by omega)
      rw [Nat.one_mul] at hsecond
      exact Or.inr ((Nat.dvd_add_right haddr).1 hsecond)
    · exact Or.inl hge
  · rintro (hone | hdvd) i hi
    · -- only the first chunk starts below the end
      have hzero : i = 0 := by
        by_contra hne
        have hle : 1 * chunkSize ≤ i * chunkSize :=
          Nat.mul_le_mul_right _ (Nat.one_le_iff_ne_zero.2 hne)
        omega
      simpa [hzero] using haddr
    · exact Nat.dvd_add haddr (Dvd.dvd.mul_left hdvd i)

end ChunkTable

/-! ## The migration plugins -/

/-- The allocations of a configured plugin: page-aligned, not below the threshold, and cut by
`addRegion`, which divides by the chunk size. -/
def FromConfig (config : ShamblesPluginConfig) : Event → Prop
  | .alloc _ region =>
      ∃ size, 0 < config.chunkSize ∧ config.sizeThresshold ≤ size ∧
        region.start + size ≤ 2 ^ 64 ∧ PAGE_SIZE ∣ region.start ∧
        region.chunks = chunkTable config.chunkSize region.start size
  | _ => True

/-- One chunk, or chunks of whole pages. -/
def ChunksOnPages (config : ShamblesPluginConfig) : Event → Prop
  | .alloc _ region => region.size ≤ config.chunkSize ∨ PAGE_SIZE ∣ config.chunkSize
  | _ => True

instance (config : ShamblesPluginConfig) : (e : Event) → Decidable (ChunksOnPages config e)
  | .alloc _ _ => inferInstanceAs (Decidable (_ ∨ _))
  | .free _ => isTrue trivial
  | .sample _ _ => isTrue trivial

theorem chunks_on_pages_iff {config : ShamblesPluginConfig} {p : RegionPtr}
    {region : ShamblesRegion} (h : FromConfig config (.alloc p region)) :
    (∀ c ∈ region.chunks, PAGE_SIZE ∣ c.start) ↔ ChunksOnPages config (.alloc p region) := by
  rcases h with ⟨size, hpos, -, hend, hstart, hchunks⟩
  have hsize : region.size = size := by
    rw [ShamblesRegion.size, hchunks, chunkTable_size]
  rw [hchunks, chunkTable_on_pages_iff hpos hend hstart, ChunksOnPages, hsize]

/-- The same for both plugins: what counts is their view. -/
theorem view_on_pages_iff {σ : Type} {S : System σ Event} {view : σ → View} {s₀ s : σ}
    {es : List Event} {config : ShamblesPluginConfig}
    (hsteps : ∀ s e s', S.step s e = some s' → (view s).Step e (view s'))
    (hinit : view s₀ = View.init) (hrun : Run S s₀ es s)
    (hconfig : ∀ e ∈ es, FromConfig config e) :
    (∀ c ∈ (view s).bound, PAGE_SIZE ∣ c.start) ↔ ∀ e ∈ es, ChunksOnPages config e := by
  have hstart : ∀ p region, .alloc p region ∈ es → PAGE_SIZE ∣ region.start := by
    intro p region hmem
    rcases hconfig _ hmem with ⟨_, _, _, _, hpage, _⟩
    exact hpage
  rw [View.starts_iff (dvd_zero _) hsteps hinit hrun hstart]
  constructor
  · intro hchunks e he
    cases e with
    | alloc p region => exact (chunks_on_pages_iff (hconfig _ he)).1 (hchunks p region he)
    | free p => trivial
    | sample addr chunk => trivial
  · intro hall p region hmem
    exact (chunks_on_pages_iff (hconfig _ hmem)).2 (hall _ hmem)

theorem startsOnPages_iff_bound (trace : List Effect) :
    StartsOnPages trace ↔ ∀ c ∈ (bindings trace).map Prod.fst, PAGE_SIZE ∣ c.start := by
  simp [StartsOnPages]

/-! ## The three plugins -/

/-- The static-fractional plugin under an accepted configuration. -/
def settingsOf {m : Machine} {env : Environment} {config : ShamblesPluginConfig}
    (h : shamblesPluginConfigInit m env = some config) (fractions : List Nat) (invert : Bool)
    (hle : ∀ f ∈ fractions, f ≤ 2 ^ FRACTION_SHIFT) : Settings :=
  ⟨config.sizeThresshold, fractions, invert, thresshold_pos_of_config h, hle⟩

/-- When the bindings of a plugin start on pages, for an accepted configuration and runs over
page-aligned allocations. -/
structure OnPagesIff {m : Machine} {env : Environment} {config : ShamblesPluginConfig}
    (h : shamblesPluginConfigInit m env = some config) : Prop where
  lru : ∀ (es : List Event) (s : Lru.State),
    Run Lru.system (Lru.lruInit config.fastChunks) es s → (∀ e ∈ es, FromConfig config e) →
      (StartsOnPages s.trace ↔ ∀ e ∈ es, ChunksOnPages config e)
  window : ∀ (windowSize : Nat) (es : List Event) (s : Window.State),
    Run Window.system (Window.windowInit config.fastChunks config.chunkSize windowSize) es s →
      (∀ e ∈ es, FromConfig config e) →
        (StartsOnPages s.trace ↔ ∀ e ∈ es, ChunksOnPages config e)
  plain : ∀ (fractions : List Nat) (invert : Bool)
    (hle : ∀ f ∈ fractions, f ≤ 2 ^ FRACTION_SHIFT) (calls : List Call) (t : PlainState),
    Run (plainBuild (settingsOf h fractions invert hle)) PlainState.init calls t →
      (∀ call ∈ calls, (settingsOf h fractions invert hle).Large call →
        PAGE_SIZE ∣ call.event.outPtr) →
        ((∀ es ∈ t.trace, StartsOnPages es) ↔
          ∀ (i : Nat) (call : Call), calls[i]? = some call →
            (settingsOf h fractions invert hle).Large call →
              SplitsOnPage (settingsOf h fractions invert hle)
                ((settingsOf h fractions invert hle).largeCount (calls.take i)) call)
  logging : ∀ (fractions : List Nat) (invert : Bool)
    (hle : ∀ f ∈ fractions, f ≤ 2 ^ FRACTION_SHIFT) (g : Geometry) (calls : List Call)
    (s : LoggingState g),
    Run (loggingBuild (settingsOf h fractions invert hle) g) (LoggingState.init g) calls s →
      (∀ call ∈ calls, (settingsOf h fractions invert hle).Large call →
        PAGE_SIZE ∣ call.event.outPtr) →
        ((∀ es ∈ s.trace, StartsOnPages es) ↔
          ∀ (i : Nat) (call : Call), calls[i]? = some call →
            (settingsOf h fractions invert hle).Large call →
              SplitsOnPage (settingsOf h fractions invert hle)
                ((settingsOf h fractions invert hle).largeCount (calls.take i)) call)

end Plugins
end Shambles
