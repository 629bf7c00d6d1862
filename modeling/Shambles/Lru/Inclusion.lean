import Shambles.Lru.Refinement
import Shambles.Plugins.Counters

/-!
# Inclusion — more fast memory never hurts the LRU plugin

Two plugins with capacities `C₁ ≤ C₂` see the same events.  The recency list does not depend on the
capacity, and the fast chunks are its first elements: what the smaller plugin has in fast memory,
the larger one has too.  So every sample that hits in the smaller plugin hits in the larger one.
-/

namespace Shambles
namespace Lru

open Structures Plugins

/-! ## Hits -/

/-- The number of samples logged as hits so far. -/
def hits (s : State) : Nat :=
  (hooks s.trace).countP HookCall.isHit

theorem hits_emit (s : State) (es : List Effect) :
    hits (s.emit es) = hits s + (hooks es).countP HookCall.isHit := by
  simp [hits, State.emit]

/-- Placing the chunks of a new region logs migrations only. -/
theorem hits_placeFast (ns : List NodePtr) : ∀ s : State, hits (placeFast s ns).1 = hits s := by
  induction ns with
  | nil =>
      intro s
      rfl
  | cons n rest ih =>
      intro s
      by_cases hfree : s.freeFastChunks = 0
      · simp [placeFast, hfree]
      · simp only [placeFast, ne_eq, hfree, not_false_eq_true, if_true, ih]
        simp [hits, State.emit, State.enqMru, State.setLoc, HookCall.isHit]

theorem hits_placeSlow (ns : List NodePtr) : ∀ s : State, hits (placeSlow s ns) = hits s := by
  induction ns with
  | nil =>
      intro s
      rfl
  | cons n rest ih =>
      intro s
      simp only [placeSlow, ih]
      simp [hits, State.emit, State.enqLru, State.setLoc, HookCall.isHit]

theorem hits_allocRegion (s : State) (p : RegionPtr) (region : ShamblesRegion) :
    hits (allocRegion s p region) = hits s := by
  calc
    hits (allocRegion s p region)
        = hits (placeFast (initNodes { s with regions := (p, region) :: s.regions } p region)
            (nodesOf p region)).1 := hits_placeSlow _ _
    _ = hits (initNodes { s with regions := (p, region) :: s.regions } p region) :=
          hits_placeFast _ _
    _ = hits s := rfl

theorem hits_freeChunk (region : ShamblesRegion) (s : State) (n : NodePtr) :
    hits (freeChunk region s n) = hits s := by
  simp only [freeChunk]
  split
  · rfl
  · split
    · rfl
    · -- With or without the `mbind` of the promoted chunk.
      split
      · simp [hits, State.enqMru, State.emit, State.setLoc, State.dqLru, State.dqMru,
          HookCall.isHit]
      · rfl

theorem hits_freeChunks (region : ShamblesRegion) (ns : List NodePtr) :
    ∀ s : State, hits (ns.foldl (freeChunk region) s) = hits s := by
  induction ns with
  | nil =>
      intro s
      rfl
  | cons n rest ih =>
      intro s
      simp [ih, hits_freeChunk]

theorem hits_freeRegion (s : State) (p : RegionPtr) (region : ShamblesRegion) :
    hits (freeRegion s p region) = hits s := by
  calc
    hits (freeRegion s p region)
        = hits ((nodesOf p region).foldl (freeChunk region) (s.emit (unbind region))) := rfl
    _ = hits (s.emit (unbind region)) := hits_freeChunks region _ _
    _ = hits s := by simp [hits_emit]

/-- What the next event adds to the number of hits: one, if it samples a fast chunk. -/
def newHits (loc : NodePtr → MemLoc) : Event → Nat
  | .sample _ (some n) => if loc n = .fast then 1 else 0
  | _ => 0

theorem hits_step {s s' : State} {e : Event} (h : step s e = some s') :
    hits s' = hits s + newHits s.loc e := by
  cases e with
  | alloc p region =>
      obtain rfl := Option.some.inj h
      simpa [newHits] using hits_allocRegion s p region
  | free p =>
      simp only [step] at h
      split at h
      · obtain rfl := Option.some.inj h
        simpa [newHits] using hits_freeRegion s p _
      · cases h
  | sample addr chunk =>
      cases chunk with
      | none =>
          obtain rfl := Option.some.inj h
          simp [hits_emit, newHits, HookCall.isHit]
      | some n =>
          -- a hit is logged exactly if the tag says fast; a swap logs migrations only
          simp only [step, handleSample] at h
          split at h
          · rename_i hfast
            obtain rfl := Option.some.inj h
            simp [sampleFast, hits, State.pushMru, State.emit, State.dqMru, newHits,
              HookCall.isHit, hfast]
          · rename_i hslow
            split at h
            · cases h
            · rename_i head _
              obtain rfl := Option.some.inj h
              have htrace : (sampleSlow (s.dqLru n) addr n ((s.dqLru n).links.prev head)).trace =
                  s.trace ++ [.logSample addr ⟨true, false⟩] ++
                    swap (s.chunk n).chunk (s.chunk ((s.dqLru n).links.prev head)).chunk := rfl
              simp only [hits, htrace, hooks_append, hooks_logSample, hooks_swap,
                List.countP_append]
              simp [newHits, HookCall.isHit, hslow]

/-! ## The coupling -/

/-- The fast chunks are a beginning of the recency list, as long as the capacity allows. -/
theorem Refines.mem_take_iff {C : Nat} {s : State} {L : List NodePtr} (h : Refines C s L)
    {n : NodePtr} (hn : LiveNode s.regions n) : s.loc n = .fast ↔ n ∈ L.take C := by
  rcases h.rep with ⟨m, l, hrep, rfl⟩
  have hmem : n ∈ m ++ l := (h.live n).2 hn
  have hfull := hrep.full
  have htake : (m ++ l).take C = m := by
    by_cases hlt : m.length < C
    · have hnil : l = [] := hrep.eq_nil_of_lt hlt
      simp [hnil, List.take_of_length_le hlt.le]
    · have hlen : m.length = C := by omega
      simp [← hlen]
  rw [htake]
  exact hrep.mem_fast_iff hmem

/-- The states of a smaller and a larger plugin after the same events. -/
structure Coupled (C₁ C₂ : Nat) (L : List NodePtr) (s₁ s₂ : State) : Prop where
  small : Refines C₁ s₁ L
  large : Refines C₂ s₂ L
  regions : s₂.regions = s₁.regions
  hits : hits s₁ ≤ hits s₂

namespace Coupled

variable {C₁ C₂ : Nat} {L : List NodePtr} {s₁ s₂ s₁' s₂' : State}

theorem fast (h : Coupled C₁ C₂ L s₁ s₂) (hle : C₁ ≤ C₂) {n : NodePtr}
    (hn : LiveNode s₁.regions n) (hfast : s₁.loc n = .fast) : s₂.loc n = .fast := by
  have hn₂ : LiveNode s₂.regions n := by
    rw [h.regions]
    exact hn
  have hmem : n ∈ L.take C₁ := (h.small.mem_take_iff hn).1 hfast
  exact (h.large.mem_take_iff hn₂).2 (List.take_subset_take_left L hle hmem)

/-- A sample that hits in the smaller plugin hits in the larger one. -/
theorem newHits_le (h : Coupled C₁ C₂ L s₁ s₂) (hle : C₁ ≤ C₂) {e : Event}
    (he : Enabled s₁.regions e) : newHits s₁.loc e ≤ newHits s₂.loc e := by
  cases e with
  | alloc p region => exact le_refl _
  | free p => exact le_refl _
  | sample addr chunk =>
      cases chunk with
      | none => exact le_refl _
      | some n =>
          by_cases hfast : s₁.loc n = .fast
          · simp [newHits, hfast, h.fast hle he hfast]
          · simp [newHits, hfast]

/-- The regions a step leaves depend on the regions it finds and on nothing else. -/
theorem regions_step (hregions : s₂.regions = s₁.regions) {e : Event}
    (h₁ : step s₁ e = some s₁') (h₂ : step s₂ e = some s₂') : s₂'.regions = s₁'.regions := by
  cases e with
  | alloc p region =>
      obtain rfl := Option.some.inj h₁
      obtain rfl := Option.some.inj h₂
      simp [allocRegion_regions, hregions]
  | free p =>
      simp only [step, hregions] at h₁ h₂
      cases hp : s₁.regions.lookup p with
      | none => simp [hp] at h₁
      | some region =>
          simp only [hp] at h₁ h₂
          obtain rfl := Option.some.inj h₁
          obtain rfl := Option.some.inj h₂
          simp [freeRegion_regions, hregions]
  | sample addr chunk =>
      rw [handleSample_regions h₁, handleSample_regions h₂, hregions]

/-- One event in both plugins: the larger one can follow, and the coupling is kept. -/
theorem step (h : Coupled C₁ C₂ L s₁ s₂) (hC : 1 ≤ C₁) (hle : C₁ ≤ C₂) {e : Event}
    (he : Enabled s₁.regions e) (h₁ : step s₁ e = some s₁') :
    ∃ s₂', Lru.step s₂ e = some s₂' ∧ Coupled C₁ C₂ (recencyStep L e) s₁' s₂' := by
  have he₂ : Enabled s₂.regions e := by
    rw [h.regions]
    exact he
  rcases h.small.step hC he with ⟨t₁, ht₁, hsmall⟩
  obtain rfl : t₁ = s₁' := Option.some.inj (ht₁.symm.trans h₁)
  rcases h.large.step (hC.trans hle) he₂ with ⟨s₂', h₂, hlarge⟩
  refine ⟨s₂', h₂, hsmall, hlarge, regions_step h.regions h₁ h₂, ?_⟩
  calc
    Lru.hits t₁ = Lru.hits s₁ + newHits s₁.loc e := hits_step h₁
    _ ≤ Lru.hits s₂ + newHits s₂.loc e := Nat.add_le_add h.hits (h.newHits_le hle he)
    _ = Lru.hits s₂' := (hits_step h₂).symm

/-- The larger plugin can follow every run of the smaller one. -/
theorem run (hC : 1 ≤ C₁) (hle : C₁ ≤ C₂) (hmax : C₂ ≤ INT_MAX) {es : List Event}
    (h : Run system (lruInit C₁) es s₁) :
    ∃ s₂, Run system (lruInit C₂) es s₂ ∧ Coupled C₁ C₂ (recency es) s₁ s₂ := by
  refine Run.invariant
    (P := fun es s₁ => ∃ s₂, Run system (lruInit C₂) es s₂ ∧ Coupled C₁ C₂ (recency es) s₁ s₂)
    ?_ ?_ h
  · have hzero : Lru.hits (lruInit C₁) ≤ Lru.hits (lruInit C₂) := by
      simp [Lru.hits, lruInit]
    have hsmall : Refines C₁ (lruInit C₁) [] := Refines.init (hle.trans hmax)
    exact ⟨lruInit C₂, Run.nil, hsmall, Refines.init hmax, rfl, hzero⟩
  · intro es s₁ e s₁' hs hen hst
    rcases hs with ⟨s₂, hrun, hcoupled⟩
    rcases hcoupled.step hC hle hen hst with ⟨s₂', h₂, hcoupled'⟩
    refine ⟨s₂', Run.snoc hrun ?_ h₂, by simpa [recency_snoc] using hcoupled'⟩
    show Enabled s₂.regions e
    rw [hcoupled.regions]
    exact hen

end Coupled

/-- Two plugins that see the same events: the larger one can take every event the smaller one
takes, has every chunk in fast memory that the smaller one has there, and logs at least as many
hits.  A run may stop after any of the events, so this holds after each of them. -/
theorem lru_inclusion (C₁ C₂ : Nat) (hC : 1 ≤ C₁) (hle : C₁ ≤ C₂) (hmax : C₂ ≤ INT_MAX)
    {es : List Event} {s₁ : State} (h₁ : Run system (lruInit C₁) es s₁) :
    (∃ s₂, Run system (lruInit C₂) es s₂) ∧
      ∀ s₂, Run system (lruInit C₂) es s₂ →
        (∀ n, LiveNode s₁.regions n → s₁.loc n = .fast → LiveNode s₂.regions n ∧ s₂.loc n = .fast) ∧
          hits s₁ ≤ hits s₂ := by
  rcases Coupled.run hC hle hmax h₁ with ⟨t₂, ht₂, hcoupled⟩
  refine ⟨⟨t₂, ht₂⟩, ?_⟩
  intro s₂ h₂
  obtain rfl : t₂ = s₂ := ht₂.unique h₂
  refine ⟨?_, hcoupled.hits⟩
  intro n hn hfast
  refine ⟨?_, hcoupled.fast hle hn hfast⟩
  rw [hcoupled.regions]
  exact hn

/-- One region of two chunks with one and with two fast places; the second chunk is sampled, which
is a miss in the first plugin and a hit in the second. -/
theorem lru_inclusion_two_chunks :
    ∃ s₁ s₂,
      Run system (lruInit 1)
        [.alloc 1 ⟨0x18000, [⟨0x18000, 0x10000⟩, ⟨0x28000, 0x10000⟩], 0x900⟩,
          .sample 0x28010 (some ⟨1, 1⟩)] s₁ ∧
      Run system (lruInit 2)
        [.alloc 1 ⟨0x18000, [⟨0x18000, 0x10000⟩, ⟨0x28000, 0x10000⟩], 0x900⟩,
          .sample 0x28010 (some ⟨1, 1⟩)] s₂ ∧
      (∀ n, LiveNode s₁.regions n → s₁.loc n = .fast → LiveNode s₂.regions n ∧ s₂.loc n = .fast) ∧
        hits s₁ ≤ hits s₂ := by
  rcases Run.of_exec system (lruInit 1)
    [.alloc 1 ⟨0x18000, [⟨0x18000, 0x10000⟩, ⟨0x28000, 0x10000⟩], 0x900⟩,
      .sample 0x28010 (some ⟨1, 1⟩)] (by decide) with ⟨s₁, _, hrun⟩
  have hboth := lru_inclusion 1 2 (by decide) (by decide) (by decide) hrun
  rcases hboth.1 with ⟨s₂, hrun₂⟩
  exact ⟨s₁, s₂, hrun, hrun₂, hboth.2 s₂ hrun₂⟩

end Lru
end Shambles
