import Shambles.Lru.Placement
import Shambles.Pages.View

/-!
# Lru — the bindings of the LRU plugin

Every event of the LRU plugin is a `View.Step`.  Of the five places that issue a binding, the two
loops of an allocation go through the chunks of the new region; the other three (`unbind`, the
promotion on release, the swap on a miss) name the released region or the chunk of a node.
-/

namespace Shambles
namespace Lru

open Structures Plugins

def bound (s : State) : List ShamblesChunk :=
  (bindings s.trace).map Prod.fst

def view (s : State) : View :=
  ⟨fun n => (s.chunk n).chunk, s.regions, bound s⟩

theorem bound_emit (s : State) (es : List Effect) :
    bound (s.emit es) = bound s ++ (bindings es).map Prod.fst := by
  simp [bound, State.emit, bindings_append]

/-! ## Allocation -/

theorem bound_placeSlow (ns : List NodePtr) :
    ∀ s : State, bound (placeSlow s ns) = bound s ++ ns.map fun n => (s.chunk n).chunk := by
  induction ns with
  | nil =>
      intro s
      simp [placeSlow]
  | cons n rest ih =>
      intro s
      rw [placeSlow, ih, bound_emit]
      simp [State.emit, State.enqLru, State.setLoc, bound, bindings, bindSlowAlloc]

/-- What the first loop has bound, and what it leaves to the second. -/
theorem bound_placeFast (ns : List NodePtr) :
    ∀ s : State, bound (placeFast s ns).1 ++ (placeFast s ns).2.map (fun n => (s.chunk n).chunk) =
      bound s ++ ns.map fun n => (s.chunk n).chunk := by
  induction ns with
  | nil =>
      intro s
      simp [placeFast]
  | cons n rest ih =>
      intro s
      by_cases hfree : s.freeFastChunks = 0
      · simp [placeFast, hfree]
      · -- the chunk of `n` is bound, and the rest by the induction hypothesis
        have hrest := ih { ((s.setLoc n .fast).enqMru n).emit (bindFastAlloc (s.chunk n).chunk) with
          freeFastChunks := s.freeFastChunks - 1 }
        simp only [placeFast, ne_eq, hfree, not_false_eq_true, if_true]
        refine hrest.trans ?_
        simp [State.emit, State.enqMru, State.setLoc, bound, bindings, bindFastAlloc]

theorem bound_place (s : State) (ns : List NodePtr) :
    bound (placeSlow (placeFast s ns).1 (placeFast s ns).2) =
      bound s ++ ns.map fun n => (s.chunk n).chunk := by
  rw [bound_placeSlow, placeFast_chunk, bound_placeFast]

/-- The nodes of a new region have its chunks, in order. -/
theorem map_chunk_initNodes (s : State) (p : RegionPtr) (region : ShamblesRegion) :
    (nodesOf p region).map (fun n => ((initNodes s p region).chunk n).chunk) = region.chunks := by
  refine List.ext_getElem? ?_
  intro i
  simp only [nodesOf, List.map_map, List.getElem?_map, Function.comp_def]
  rcases Nat.lt_or_ge i region.chunks.length with hlt | hge
  · have hnode : region.chunks[i]? = some region.chunks[i] := List.getElem?_eq_getElem hlt
    have hrange : (List.range region.nChunks)[i]? = some i := by
      simp [ShamblesRegion.nChunks, hlt]
    simp [hrange, initNodes, hnode]
  · have hrange : (List.range region.nChunks)[i]? = none := by
      simp [ShamblesRegion.nChunks, hge]
    simp [hrange, hge]

theorem initNodes_chunk_cases (s : State) (p : RegionPtr) (region : ShamblesRegion) (n : NodePtr) :
    ((initNodes s p region).chunk n).chunk = (s.chunk n).chunk ∨
      ((initNodes s p region).chunk n).chunk ∈ region.chunks := by
  by_cases hp : n.region = p
  · cases hc : region.chunks[n.index]? with
    | none => exact Or.inl (by simp [initNodes, hp, hc])
    | some c =>
        right
        have hmem := List.mem_of_getElem? hc
        simpa [initNodes, hp, hc] using hmem
  · exact Or.inl (by simp [initNodes, hp])

theorem allocRegion_step (s : State) (p : RegionPtr) (region : ShamblesRegion) :
    (view s).Step (.alloc p region) (view (allocRegion s p region)) := by
  have hchunk : (allocRegion s p region).chunk =
      (initNodes { s with regions := (p, region) :: s.regions } p region).chunk := by
    simp [allocRegion, placeSlow_chunk, placeFast_chunk]
  refine ⟨allocRegion_regions s p region, ?_, ?_⟩
  · intro n
    have hcases := initNodes_chunk_cases { s with regions := (p, region) :: s.regions } p region n
    simpa [view, hchunk] using hcases
  · have hbound : bound (allocRegion s p region) = bound s ++ region.chunks := by
      rw [allocRegion, bound_place, map_chunk_initNodes]
      rfl
    exact hbound

/-! ## Release -/

theorem rebinds_of_emit {s s' : State} (es : List Effect) (hchunk : s'.chunk = s.chunk)
    (hregions : s'.regions = s.regions) (htrace : s'.trace = s.trace ++ es)
    (hknown : ∀ c ∈ (bindings es).map Prod.fst, (view s).Known c) :
    View.Rebinds (view s) (view s') := by
  refine ⟨by simp [view, hchunk], hregions, (bindings es).map Prod.fst, ?_, hknown⟩
  simp [view, bound, htrace, bindings_append]

theorem freeChunk_rebinds (region : ShamblesRegion) (s : State) (n : NodePtr) :
    View.Rebinds (view s) (view (freeChunk region s n)) := by
  rcases freeChunk_cases region s n with ⟨hchunk, ⟨-, -, htrace⟩ | ⟨p, -, -, htrace⟩⟩
  · refine rebinds_of_emit [] hchunk (freeChunk_regions region s n) (by simp [htrace]) ?_
    simp [bindings]
  · by_cases hbound : BoundOnFree region s p
    · refine rebinds_of_emit (bindFast (s.chunk p).chunk) hchunk (freeChunk_regions region s n)
        (htrace.trans (if_pos hbound)) ?_
      intro c hc
      obtain rfl : c = ⟨(s.chunk p).chunk.start, (s.chunk p).chunk.size⟩ := by
        simpa [bindings, bindFast] using hc
      exact Or.inl ⟨p, rfl⟩
    · refine rebinds_of_emit [] hchunk (freeChunk_regions region s n)
        (by simp [htrace, hbound]) ?_
      simp [bindings]

theorem freeChunks_rebinds (region : ShamblesRegion) (ns : List NodePtr) :
    ∀ s : State, View.Rebinds (view s) (view (ns.foldl (freeChunk region) s)) := by
  induction ns with
  | nil =>
      intro s
      exact View.Rebinds.refl _
  | cons n rest ih =>
      intro s
      exact (freeChunk_rebinds region s n).trans (ih _)

theorem freeRegion_step {s : State} {p : RegionPtr} {region : ShamblesRegion}
    (hregion : s.regions.lookup p = some region) :
    (view s).Step (.free p) (view (freeRegion s p region)) := by
  have hunbind : View.Rebinds (view s) (view (s.emit (unbind region))) :=
    rebinds_of_emit (unbind region) rfl rfl rfl (View.known_unbind (AssocList.mem_of_lookup hregion))
  exact ⟨_, hunbind.trans (freeChunks_rebinds region (nodesOf p region) _), rfl⟩

/-! ## Samples -/

theorem handleSample_step {s s' : State} {addr : Nat} {chunk : Option NodePtr}
    (h : handleSample s addr chunk = some s') : View.Rebinds (view s) (view s') := by
  cases chunk with
  | none =>
      obtain rfl : s.emit [.logSample addr ⟨false, false⟩] = s' := by simpa [handleSample] using h
      exact rebinds_of_emit [.logSample addr ⟨false, false⟩] rfl rfl rfl (by simp [bindings])
  | some n =>
      simp only [handleSample] at h
      split at h
      · obtain rfl := Option.some.inj h
        exact rebinds_of_emit [.logSample addr ⟨true, true⟩] rfl rfl rfl (by simp [bindings])
      · split at h
        · cases h
        · -- the chunks that change places are those of two nodes
          obtain rfl := Option.some.inj h
          rename_i head hmru
          refine rebinds_of_emit (.logSample addr ⟨true, false⟩ ::
            swap (s.chunk n).chunk (s.chunk ((s.dqLru n).links.prev head)).chunk) rfl rfl ?_
            (View.known_swap (view s) n _)
          simp [sampleSlow, State.emit, State.pushMru, State.setLoc, State.pushLru, State.dqMru,
            State.dqLru]

theorem step_view {s s' : State} {e : Event} (h : step s e = some s') :
    (view s).Step e (view s') := by
  cases e with
  | alloc p region =>
      obtain rfl := Option.some.inj h
      exact allocRegion_step s p region
  | free p =>
      cases hregion : s.regions.lookup p with
      | none => simp [step, hregion] at h
      | some region =>
          obtain rfl : freeRegion s p region = s' := by simpa [step, hregion] using h
          exact freeRegion_step hregion
  | sample addr chunk => exact handleSample_step h

theorem view_init (fastChunks : Nat) : view (lruInit fastChunks) = View.init :=
  rfl

end Lru
end Shambles
