import Shambles.Pages.Lru
import Shambles.Window.Allocation
import Shambles.Window.Frame

/-!
# Window — the bindings of the window plugin

The window plugin binds in the same places as the LRU plugin, so `view` goes through `lruView`.
Most of its functions leave the trace alone (`Untouched`); bindings come from the two exchanges
between the lists, from an allocation and from `unbind`.
-/

namespace Shambles
namespace Window

open Structures Plugins

def view (s : State) : View :=
  Lru.view (lruView s)

theorem view_init (fastChunks chunkSize windowSize : Nat) :
    view (windowInit fastChunks chunkSize windowSize) = View.init :=
  rfl

/-- Functions that leave the trace alone bind nothing. -/
theorem Untouched.view_eq {s s' : State} (h : Untouched s s') : view s' = view s := by
  simp only [view, lruView, Lru.view, Lru.bound, h.rest.chunk, h.rest.regions, h.trace]

theorem view_setSample {s s' : State} {node : NodePtr} (h : s.setSample node = some s') :
    view s' = view s := by
  unfold State.setSample at h
  split at h
  · obtain rfl := Option.some.inj h
    rfl
  · cases h

/-! ## Exchanges -/

section Exchanges

variable {s s' : State} {node : NodePtr}

theorem demoteExchange_rebinds (s : State) (node head : NodePtr) :
    View.Rebinds (view s) (view (demoteExchange s node head)) :=
  Lru.rebinds_of_emit (swap (s.chunk head).chunk (s.chunk node).chunk) rfl rfl rfl
    (View.known_swap (view s) head node)

theorem promoteExchange_rebinds (s : State) (node tail : NodePtr) :
    View.Rebinds (view s) (view (promoteExchange s node tail)) :=
  Lru.rebinds_of_emit (swap (s.chunk node).chunk (s.chunk tail).chunk) rfl rfl rfl
    (View.known_swap (view s) node tail)

/-! ## Events -/

theorem demote_rebinds (h : demote s node = some s') : View.Rebinds (view s) (view s') := by
  rcases demote_cases h with ⟨-, s₁, rfl, hsame | ⟨head, hsame⟩⟩
  · -- the count of a node is no part of the view
    have hview : view (s₁.setCount node (s.count node - 1)) = view s := hsame.view_eq
    rw [hview]
    exact View.Rebinds.refl _
  · have hview : view (s₁.setCount node (s.count node - 1)) = view (demoteExchange s node head) :=
      hsame.view_eq
    rw [hview]
    exact demoteExchange_rebinds s node head

theorem promote_rebinds (h : promote s node = some s') : View.Rebinds (view s) (view s') := by
  rcases promote_cases h with ⟨s₁, rfl, hsame | ⟨tail, hsame⟩⟩
  · have hview : view (s₁.setCount node (s.count node + 1)) = view s := hsame.view_eq
    rw [hview]
    exact View.Rebinds.refl _
  · have hview : view (s₁.setCount node (s.count node + 1)) = view (promoteExchange s node tail) :=
      hsame.view_eq
    rw [hview]
    exact promoteExchange_rebinds s node tail

theorem leaveRing_rebinds {old : Option NodePtr} (h : leaveRing s old = some s') :
    View.Rebinds (view s) (view s') := by
  cases old with
  | none =>
      obtain rfl := Option.some.inj h
      exact View.Rebinds.refl _
  | some node => exact demote_rebinds h

theorem handleSample_rebinds {addr : Nat} {chunk : Option NodePtr}
    (h : handleSample s addr chunk = some s') : View.Rebinds (view s) (view s') := by
  cases chunk with
  | none =>
      obtain rfl := Option.some.inj h
      exact Lru.rebinds_of_emit [.logSample addr ⟨false, false⟩] rfl rfl rfl (by simp [bindings])
  | some node =>
      have hlog : View.Rebinds (view s) (view (logged s addr node)) :=
        Lru.rebinds_of_emit [.logSample addr ⟨true, s.loc node = .fast⟩] rfl rfl rfl
          (by simp [bindings])
      rcases handleSample_cases h with
        ⟨old, -, ⟨-, rfl⟩ | ⟨-, s₂, s₃, s₄, hs₂, hs₃, hs₄, rfl⟩⟩
      · exact hlog
      · -- first the sample that leaves the ring, then the one that enters it
        have hpromote := promote_rebinds hs₄
        rw [view_setSample hs₃] at hpromote
        exact (hlog.trans (leaveRing_rebinds hs₂)).trans hpromote

theorem allocRegion_step {p : RegionPtr} {region : ShamblesRegion}
    (h : allocRegion s p region = some s') : (view s).Step (.alloc p region) (view s') := by
  have hplace : view s' = Lru.view (Lru.allocRegion (lruView s) p region) := by
    refine (Untouched.setTail h).view_eq.trans ?_
    rcases placeFast_view (nodesOf p region)
      (initNodes { s with regions := (p, region) :: s.regions } p region) with ⟨hfast, hrest⟩
    rw [view, placeSlow_view, hfast, hrest]
    rfl
  rw [hplace]
  exact Lru.allocRegion_step (lruView s) p region

theorem freeRegion_step {p : RegionPtr} {region : ShamblesRegion}
    (hregion : s.regions.lookup p = some region) (h : freeRegion s p region = some s') :
    (view s).Step (.free p) (view s') := by
  rcases Option.bind_eq_some_iff.1 h with ⟨s₂, hs₂, h⟩
  obtain rfl := Option.some.inj h
  have hunbind : View.Rebinds (view s) (view (s.emit (unbind region))) :=
    Lru.rebinds_of_emit (unbind region) rfl rfl rfl
      (View.known_unbind (AssocList.mem_of_lookup hregion))
  rw [← (Untouched.freeChunks hs₂).view_eq] at hunbind
  exact ⟨view s₂, hunbind, rfl⟩

theorem step_view {e : Event} (h : step s e = some s') : (view s).Step e (view s') := by
  cases e with
  | alloc p region => exact allocRegion_step h
  | free p =>
      cases hregion : s.regions.lookup p with
      | none => simp [step, hregion] at h
      | some region =>
          have hfree : freeRegion s p region = some s' := by simpa [step, hregion] using h
          exact freeRegion_step hregion hfree
  | sample addr chunk => exact handleSample_rebinds h

end Exchanges

end Window
end Shambles
