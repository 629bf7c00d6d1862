import Shambles.Lru.Addresses

/-!
# Trace — the plugin does not read what it has written

The trace of a state is what the plugin has done to the outside: the `mbind` calls and log entries.  No
decision depends on it.  So a step from a state with a longer past is the same step behind that past
(`step_retrace`), and two states that differ in their traces only stay alike.
-/

namespace Shambles
namespace Lru

open Structures Plugins

namespace State

/-- The same state with more behind it. -/
def retrace (past : List Effect) (s : State) : State :=
  { s with trace := past ++ s.trace }

/-- The same state with nothing behind it. -/
def clear (s : State) : State :=
  { s with trace := [] }

theorem retrace_clear (s : State) : s.clear.retrace s.trace = s := by
  simp [retrace, clear]

@[simp] theorem clear_retrace (past : List Effect) (s : State) : (s.retrace past).clear = s.clear :=
  rfl

theorem emit_retrace (past : List Effect) (s : State) (es : List Effect) :
    (s.retrace past).emit es = (s.emit es).retrace past := by
  simp [emit, retrace]

end State

section Retrace

variable (past : List Effect)

theorem placeSlow_retrace (ns : List NodePtr) :
    ∀ s : State, placeSlow (s.retrace past) ns = (placeSlow s ns).retrace past := by
  induction ns with
  | nil =>
      intro s
      rfl
  | cons n rest ih =>
      intro s
      rw [placeSlow, placeSlow, ← ih, ← State.emit_retrace]
      rfl

theorem placeFast_retrace (ns : List NodePtr) :
    ∀ s : State, placeFast (s.retrace past) ns =
      ((placeFast s ns).1.retrace past, (placeFast s ns).2) := by
  induction ns with
  | nil =>
      intro s
      rfl
  | cons n rest ih =>
      intro s
      by_cases hfree : s.freeFastChunks = 0
      · have hfree' : (s.retrace past).freeFastChunks = 0 := hfree
        simp [placeFast, hfree, hfree']
      · have hfree' : (s.retrace past).freeFastChunks ≠ 0 := hfree
        simp only [placeFast, ne_eq, hfree, hfree', not_false_eq_true, if_true]
        rw [← ih]
        simp [State.retrace, State.emit, State.enqMru, State.setLoc]

theorem allocRegion_retrace (s : State) (p : RegionPtr) (region : ShamblesRegion) :
    allocRegion (s.retrace past) p region = (allocRegion s p region).retrace past := by
  have hinit : initNodes { s.retrace past with regions := (p, region) :: (s.retrace past).regions } p
      region = (initNodes { s with regions := (p, region) :: s.regions } p region).retrace past := rfl
  simp only [allocRegion]
  rw [hinit, placeFast_retrace, placeSlow_retrace]

theorem freeChunk_retrace (region : ShamblesRegion) (s : State) (n : NodePtr) :
    freeChunk region (s.retrace past) n = (freeChunk region s n).retrace past := by
  by_cases hslow : s.loc n = .slow
  · have hslow' : (s.retrace past).loc n = .slow := hslow
    simp only [freeChunk, hslow, hslow', if_true]
    rfl
  · have hslow' : (s.retrace past).loc n ≠ .slow := hslow
    have hlru : ((s.retrace past).dqMru n).lru = (s.dqMru n).lru := rfl
    simp only [freeChunk, hslow, hslow', if_false, hlru]
    cases (s.dqMru n).lru with
    | none => rfl
    | some promoted =>
        -- with or without the `mbind` of the promoted chunk
        by_cases hbind : region.chunksPtr + sizeofChunk * region.nChunks < (s.chunk promoted).ptr
        · simp [State.dqLru, State.dqMru, State.setLoc, State.retrace, State.emit, State.enqMru, hbind]
        · simp [State.dqLru, State.dqMru, State.setLoc, State.retrace, State.enqMru, hbind]

theorem freeChunks_retrace (region : ShamblesRegion) (ns : List NodePtr) :
    ∀ s : State, ns.foldl (freeChunk region) (s.retrace past) =
      (ns.foldl (freeChunk region) s).retrace past := by
  induction ns with
  | nil =>
      intro s
      rfl
  | cons n rest ih =>
      intro s
      rw [List.foldl_cons, List.foldl_cons, freeChunk_retrace, ih]

/-- The part of a release that runs under the lock. -/
def freeNodes (s : State) (p : RegionPtr) (region : ShamblesRegion) : State :=
  let s₁ := (nodesOf p region).foldl (freeChunk region) s
  { s₁ with regions := s₁.regions.filter (fun r => r.1 ≠ p) }

theorem freeRegion_eq (s : State) (p : RegionPtr) (region : ShamblesRegion) :
    freeRegion s p region = freeNodes (s.emit (unbind region)) p region :=
  rfl

theorem freeNodes_retrace (s : State) (p : RegionPtr) (region : ShamblesRegion) :
    freeNodes (s.retrace past) p region = (freeNodes s p region).retrace past := by
  simp only [freeNodes]
  rw [freeChunks_retrace]
  rfl

theorem freeNodes_regions (s : State) (p : RegionPtr) (region : ShamblesRegion) :
    (freeNodes s p region).regions = s.regions.filter fun r => r.1 ≠ p := by
  simp [freeNodes, freeChunks_regions]

theorem handleSample_retrace (s : State) (addr : Nat) (chunk : Option NodePtr) :
    handleSample (s.retrace past) addr chunk =
      (handleSample s addr chunk).map (State.retrace past) := by
  cases chunk with
  | none =>
      simp only [handleSample, Option.map_some, State.emit_retrace]
  | some n =>
      by_cases hfast : s.loc n = .fast
      · have hfast' : (s.retrace past).loc n = .fast := hfast
        simp only [handleSample, hfast, hfast', if_true, Option.map_some]
        simp [sampleFast, State.retrace, State.emit, State.pushMru, State.dqMru]
      · have hfast' : (s.retrace past).loc n ≠ .fast := hfast
        have hmru : ((s.retrace past).dqLru n).mru = (s.dqLru n).mru := rfl
        simp only [handleSample, hfast, hfast', if_false, hmru]
        cases (s.dqLru n).mru with
        | none => rfl
        | some head =>
            simp [sampleSlow, State.retrace, State.emit, State.pushMru, State.pushLru, State.setLoc,
              State.dqMru, State.dqLru]

/-- A step with a past behind it. -/
theorem step_retrace (s : State) (e : Event) :
    step (s.retrace past) e = (step s e).map (State.retrace past) := by
  cases e with
  | alloc p region =>
      simp only [step, Option.map_some, allocRegion_retrace]
  | free p =>
      have hregions : (s.retrace past).regions = s.regions := rfl
      simp only [step, hregions]
      cases s.regions.lookup p with
      | none => rfl
      | some region =>
          simp only [Option.map_some, freeRegion_eq, State.emit_retrace, freeNodes_retrace]
  | sample addr chunk => exact handleSample_retrace past s addr chunk

end Retrace

/-! ## Behind the region map -/

section Front

variable {c : Setup}

def retraceFront (past : List Effect) (s : Front c State) : Front c State :=
  { s with policy := s.policy.retrace past }

theorem frontStep_retrace (past : List Effect) (s : Front c State) (r : Report) :
    (retraceFront past s).step policy r = (s.step policy r).map (retraceFront past) := by
  have hstep : ∀ e, policy.step (s.policy.retrace past) e =
      (policy.step s.policy e).map (State.retrace past) := step_retrace past s.policy
  have hregions : policy.regions (retraceFront past s).policy = policy.regions s.policy := rfl
  cases r with
  | callback event output chunksPtr =>
      cases htype : event.type with
      | alloc =>
          simp only [Front.step, Front.allocCallback, htype, retraceFront, hstep]
          split
          · cases policy.step s.policy _ with
            | none => rfl
            | some t => rfl
          · rfl
      | realloc => simp [Front.step, Front.allocCallback, htype]
      | free =>
          simp only [Front.step, Front.allocCallback, htype, hregions]
          have hroot : (retraceFront past s).root = s.root := rfl
          have hpolicy : (retraceFront past s).policy = s.policy.retrace past := rfl
          rw [hroot, hpolicy]
          cases Structures.getRegion c.geometry s.root event.inPtr with
          | none => rfl
          | some p =>
              simp only [hstep]
              cases (policy.regions s.policy).lookup p with
              | none => rfl
              | some region =>
                  cases policy.step s.policy (.free p) with
                  | none => rfl
                  | some t =>
                      simp only [Option.map_some, Option.bind_eq_bind, Option.bind_some]
                      cases deleteRegion c.geometry s.root region with
                      | none => rfl
                      | some root => rfl
  | sample addr =>
      have hchunk : (retraceFront past s).chunkAt policy addr = s.chunkAt policy addr := rfl
      simp only [Front.step, Front.handleSample, hchunk]
      have hpolicy : (retraceFront past s).policy = s.policy.retrace past := rfl
      rw [hpolicy, hstep]
      cases policy.step s.policy _ with
      | none => rfl
      | some t => rfl

/-- The same map, and the same plugin up to its past. -/
structure Alike (s u : Front c State) : Prop where
  root : s.root = u.root
  policy : s.policy.clear = u.policy.clear

namespace Alike

variable {s s' u : Front c State}

theorem regions (h : Alike s u) : s.policy.regions = u.policy.regions := by
  have hclear : s.policy.clear.regions = u.policy.clear.regions := by rw [h.policy]
  exact hclear

/-- What one of them does the other does too, with the same effects. -/
theorem step (h : Alike s u) {r : Report} (hst : s.step Lru.policy r = some s') :
    ∃ u' effects, u.step Lru.policy r = some u' ∧ Alike s' u' ∧
      s'.policy.trace = s.policy.trace ++ effects ∧
      u'.policy.trace = u.policy.trace ++ effects := by
  have hcore : ∀ v : Front c State, v.step Lru.policy r =
      (Front.step Lru.policy ⟨v.root, v.policy.clear⟩ r).map (retraceFront v.policy.trace) := by
    intro v
    rw [← frontStep_retrace]
    simp only [retraceFront, State.retrace_clear]
  rw [hcore s] at hst
  rcases Option.map_eq_some_iff.1 hst with ⟨core, hstep, rfl⟩
  refine ⟨retraceFront u.policy.trace core, core.policy.trace, ?_, ⟨rfl, rfl⟩, rfl, rfl⟩
  rw [hcore u, ← h.root, ← h.policy, hstep]
  rfl

end Alike

end Front

end Lru
end Shambles
