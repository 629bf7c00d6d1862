import Shambles.Lib.Runs
import Shambles.Plugins.Migration
import Shambles.Plugins.Nodes

/-!
# View — which ranges a migration plugin binds

Of a migration plugin this module sees three things: the chunk of every node, the live regions and
the ranges that were bound so far.  An allocation binds the chunks of its region, in order; every
other event only binds what it knows already: chunks of nodes, and ranges that start where a live
region starts.

* `View.Step` says so, for one event;
* `View.starts_iff` draws the conclusion for whole runs: a property of start addresses holds for
  every binding exactly when it holds for the chunks of every region that was allocated.
-/

namespace Shambles
namespace Plugins

open Structures

def PAGE_SIZE : Nat :=
  4096

/-- Every `mbind` in the trace starts on a page. -/
def StartsOnPages (trace : List Effect) : Prop :=
  ∀ b ∈ bindings trace, PAGE_SIZE ∣ b.1.start

instance (trace : List Effect) : Decidable (StartsOnPages trace) :=
  inferInstanceAs (Decidable (∀ b ∈ bindings trace, PAGE_SIZE ∣ b.1.start))

structure View where
  chunk : NodePtr → ShamblesChunk
  regions : RegionMap
  bound : List ShamblesChunk

namespace View

/-- Before the first event; a node without a chunk counts as one at NULL. -/
def init : View :=
  ⟨fun _ => ⟨0, 0⟩, [], []⟩

def Known (v : View) (c : ShamblesChunk) : Prop :=
  (∃ n, c = v.chunk n) ∨ ∃ r ∈ v.regions, c.start = r.2.start

/-- `unbind` starts where the region starts. -/
theorem known_unbind {v : View} {p : RegionPtr} {region : ShamblesRegion}
    (hregion : (p, region) ∈ v.regions) :
    ∀ c ∈ (bindings (unbind region)).map Prod.fst, v.Known c := by
  intro c hc
  right
  refine ⟨(p, region), hregion, ?_⟩
  cases hchunks : region.chunks with
  | nil => simp [unbind, hchunks, bindings] at hc
  | cons d ds =>
      obtain rfl : c = ⟨region.start, d.size⟩ := by simpa [unbind, hchunks, bindings] using hc
      rfl

theorem known_swap (v : View) (n m : NodePtr) :
    ∀ c ∈ (bindings (swap (v.chunk n) (v.chunk m))).map Prod.fst, v.Known c := by
  intro c hc
  have hcases : c = v.chunk m ∨ c = v.chunk n := by simpa [bindings, swap] using hc
  rcases hcases with rfl | rfl
  · exact Or.inl ⟨m, rfl⟩
  · exact Or.inl ⟨n, rfl⟩

/-- Only known ranges are bound, and nothing else changes. -/
structure Rebinds (v v' : View) : Prop where
  chunk : v'.chunk = v.chunk
  regions : v'.regions = v.regions
  bound : ∃ cs, v'.bound = v.bound ++ cs ∧ ∀ c ∈ cs, v.Known c

namespace Rebinds

theorem refl (v : View) : Rebinds v v :=
  ⟨rfl, rfl, [], by simp, by simp⟩

theorem known {v v' : View} (h : Rebinds v v') {c : ShamblesChunk} (hc : v'.Known c) :
    v.Known c := by
  simpa only [Known, h.chunk, h.regions] using hc

theorem trans {v₁ v₂ v₃ : View} (h : Rebinds v₁ v₂) (h' : Rebinds v₂ v₃) : Rebinds v₁ v₃ := by
  rcases h.bound with ⟨cs, hcs, hknown⟩
  rcases h'.bound with ⟨ds, hds, hknown'⟩
  refine ⟨h'.chunk.trans h.chunk, h'.regions.trans h.regions, cs ++ ds, ?_, ?_⟩
  · rw [hds, hcs, List.append_assoc]
  · intro c hc
    rcases List.mem_append.1 hc with hc | hc
    · exact hknown c hc
    · exact h.known (hknown' c hc)

end Rebinds

/-- One event. -/
def Step (v : View) (e : Event) (v' : View) : Prop :=
  match e with
  | .alloc p region =>
      v'.regions = (p, region) :: v.regions ∧
        (∀ n, v'.chunk n = v.chunk n ∨ v'.chunk n ∈ region.chunks) ∧
        v'.bound = v.bound ++ region.chunks
  | .free p => ∃ v₁, Rebinds v v₁ ∧ v' = { v₁ with regions := v₁.regions.filter fun r => r.1 ≠ p }
  | .sample _ _ => Rebinds v v'

/-! ## Start addresses -/

section Starts

variable (Q : Nat → Prop)

/-- Everything that can be bound, and everything that was, starts at an address with `Q`. -/
structure StartsIn (v : View) : Prop where
  chunk : ∀ n, Q (v.chunk n).start
  regions : ∀ r ∈ v.regions, Q r.2.start
  bound : ∀ c ∈ v.bound, Q c.start

variable {Q} {v v' : View}

theorem StartsIn.rebinds (h : StartsIn Q v) (hstep : Rebinds v v') : StartsIn Q v' := by
  rcases hstep.bound with ⟨cs, hcs, hknown⟩
  refine ⟨?_, ?_, ?_⟩
  · rw [hstep.chunk]
    exact h.chunk
  · rw [hstep.regions]
    exact h.regions
  · intro c hc
    rw [hcs] at hc
    rcases List.mem_append.1 hc with hc | hc
    · exact h.bound c hc
    · rcases hknown c hc with ⟨n, rfl⟩ | ⟨r, hr, hstart⟩
      · exact h.chunk n
      · rw [hstart]
        exact h.regions r hr

/-- The regions that an event allocates have their chunks and their start in `Q`. -/
def AllocatesIn (Q : Nat → Prop) : Event → Prop
  | .alloc _ region => Q region.start ∧ ∀ c ∈ region.chunks, Q c.start
  | _ => True

theorem StartsIn.step (h : StartsIn Q v) {e : Event} (hstep : v.Step e v')
    (hok : AllocatesIn Q e) : StartsIn Q v' := by
  cases e with
  | alloc p region =>
      rcases hstep with ⟨hregions, hchunk, hbound⟩
      rcases hok with ⟨hstart, hchunks⟩
      refine ⟨?_, ?_, ?_⟩
      · intro n
        rcases hchunk n with hsame | hnew
        · rw [hsame]
          exact h.chunk n
        · exact hchunks _ hnew
      · rw [hregions]
        exact List.forall_mem_cons.2 ⟨hstart, h.regions⟩
      · rw [hbound]
        exact List.forall_mem_append.2 ⟨h.bound, hchunks⟩
  | free p =>
      rcases hstep with ⟨v₁, hrebinds, rfl⟩
      have h₁ := h.rebinds hrebinds
      exact ⟨h₁.chunk, fun r hr => h₁.regions r (List.mem_of_mem_filter hr), h₁.bound⟩
  | sample addr chunk => exact h.rebinds hstep

/-- A binding is never forgotten. -/
theorem bound_subset {e : Event} (hstep : v.Step e v') : ∀ c ∈ v.bound, c ∈ v'.bound := by
  intro c hc
  cases e with
  | alloc p region =>
      rw [hstep.2.2]
      exact List.mem_append_left _ hc
  | free p =>
      rcases hstep with ⟨v₁, hrebinds, rfl⟩
      rcases hrebinds.bound with ⟨cs, hcs, -⟩
      show c ∈ v₁.bound
      rw [hcs]
      exact List.mem_append_left _ hc
  | sample addr chunk =>
      rcases hstep.bound with ⟨cs, hcs, -⟩
      rw [hcs]
      exact List.mem_append_left _ hc

end Starts

/-! ## Runs -/

section Runs

variable {σ : Type} {S : System σ Event} {view : σ → View} {s₀ s : σ} {es : List Event}

/-- Every chunk of a region that was allocated has been bound. -/
theorem bound_of_alloc (hsteps : ∀ s e s', S.step s e = some s' → (view s).Step e (view s'))
    (hrun : Run S s₀ es s) :
    ∀ p region, .alloc p region ∈ es → ∀ c ∈ region.chunks, c ∈ (view s).bound := by
  induction hrun with
  | nil => simp
  | snoc _ _ hstep ih =>
      have hview := hsteps _ _ _ hstep
      intro p region hmem c hc
      rcases List.mem_append.1 hmem with hmem | hmem
      · exact bound_subset hview c (ih p region hmem c hc)
      · obtain rfl := List.mem_singleton.1 hmem
        rw [hview.2.2]
        exact List.mem_append_right _ hc

theorem startsIn_of_run {Q : Nat → Prop} (hzero : Q 0)
    (hsteps : ∀ s e s', S.step s e = some s' → (view s).Step e (view s'))
    (hinit : view s₀ = init) (hrun : Run S s₀ es s) (hok : ∀ e ∈ es, AllocatesIn Q e) :
    StartsIn Q (view s) := by
  induction hrun with
  | nil =>
      rw [hinit]
      exact ⟨fun _ => hzero, by simp [init], by simp [init]⟩
  | snoc _ _ hstep ih =>
      have hold := ih fun e he => hok e (List.mem_append_left _ he)
      exact hold.step (hsteps _ _ _ hstep) (hok _ (by simp))

/-- Regions start in `Q` in any case; all bindings do if and only if all chunks do. -/
theorem starts_iff {Q : Nat → Prop} (hzero : Q 0)
    (hsteps : ∀ s e s', S.step s e = some s' → (view s).Step e (view s'))
    (hinit : view s₀ = init) (hrun : Run S s₀ es s)
    (hstart : ∀ p region, .alloc p region ∈ es → Q region.start) :
    (∀ c ∈ (view s).bound, Q c.start) ↔
      ∀ p region, .alloc p region ∈ es → ∀ c ∈ region.chunks, Q c.start := by
  constructor
  · intro hbound p region hmem c hc
    exact hbound c (bound_of_alloc hsteps hrun p region hmem c hc)
  · intro hchunks
    refine (startsIn_of_run hzero hsteps hinit hrun ?_).bound
    intro e he
    cases e with
    | alloc p region => exact ⟨hstart p region he, hchunks p region he⟩
    | free p => trivial
    | sample addr chunk => trivial

end Runs

end View

end Plugins
end Shambles
