import Shambles.Lru.Refinement
import Shambles.Window.Ranking

/-!
# Allocation — new regions in the window plugin

The two loops that place the chunks of a new region are the ones of `lru.c`, word for word up to
the names of the lists.  `lruView` reads a state of this plugin as one of the other, so what is
known about the loops there holds here.  What is new is the index: all new nodes have count 0 and
are appended, so the last of them becomes the last node of that class.
-/

namespace Shambles
namespace Window

open CircularList RankedList AssocList Structures Plugins

/-- The part of the state that both plugins keep. -/
def lruView (s : State) : Lru.State :=
  { freeFastChunks := s.freeFastChunks
    links := s.links
    loc := s.loc
    chunk := s.chunk
    mru := s.fastList
    lru := s.slowList
    regions := s.regions
    trace := s.trace }

theorem placeSlow_view (ns : List NodePtr) :
    ∀ s : State, lruView (placeSlow s ns) = Lru.placeSlow (lruView s) ns := by
  induction ns with
  | nil =>
      intro s
      rfl
  | cons n rest ih =>
      intro s
      exact ih _

theorem placeFast_view (ns : List NodePtr) :
    ∀ s : State, lruView (placeFast s ns).1 = (Lru.placeFast (lruView s) ns).1 ∧
      (placeFast s ns).2 = (Lru.placeFast (lruView s) ns).2 := by
  induction ns with
  | nil =>
      intro s
      exact ⟨rfl, rfl⟩
  | cons n rest ih =>
      intro s
      have hview : (lruView s).freeFastChunks = s.freeFastChunks := rfl
      by_cases hfree : s.freeFastChunks = 0
      · simp [placeFast, Lru.placeFast, hview, hfree]
      · simp only [placeFast, Lru.placeFast, hview, ne_eq, hfree, not_false_eq_true, if_true]
        exact ih _

/-! ## What the loops leave alone -/

structure SameIndex (s s' : State) : Prop where
  count : s'.count = s.count
  tails : s'.tails = s.tails
  samples : s'.samples = s.samples
  windowSize : s'.windowSize = s.windowSize
  currentLoc : s'.currentLoc = s.currentLoc
  regions : s'.regions = s.regions

theorem SameIndex.trans {s₁ s₂ s₃ : State} (h₁ : SameIndex s₁ s₂) (h₂ : SameIndex s₂ s₃) :
    SameIndex s₁ s₃ :=
  ⟨h₂.count.trans h₁.count, h₂.tails.trans h₁.tails, h₂.samples.trans h₁.samples,
    h₂.windowSize.trans h₁.windowSize, h₂.currentLoc.trans h₁.currentLoc,
    h₂.regions.trans h₁.regions⟩

theorem placeSlow_sameIndex (ns : List NodePtr) : ∀ s : State, SameIndex s (placeSlow s ns) := by
  induction ns with
  | nil =>
      intro s
      exact ⟨rfl, rfl, rfl, rfl, rfl, rfl⟩
  | cons n rest ih =>
      intro s
      have hrest := ih (((s.setLoc n .slow).enqSlow n).emit (bindSlowAlloc (s.chunk n).chunk))
      exact ⟨hrest.count, hrest.tails, hrest.samples, hrest.windowSize, hrest.currentLoc,
        hrest.regions⟩

theorem placeFast_sameIndex (ns : List NodePtr) :
    ∀ s : State, SameIndex s (placeFast s ns).1 := by
  induction ns with
  | nil =>
      intro s
      exact ⟨rfl, rfl, rfl, rfl, rfl, rfl⟩
  | cons n rest ih =>
      intro s
      by_cases hfree : s.freeFastChunks = 0
      · simp only [placeFast, hfree, ne_eq, not_true_eq_false, if_false]
        exact ⟨rfl, rfl, rfl, rfl, rfl, rfl⟩
      · simp only [placeFast, hfree, ne_eq, not_false_eq_true, if_true]
        have hrest := ih { ((s.setLoc n .fast).enqFast n).emit (bindFastAlloc (s.chunk n).chunk) with
          freeFastChunks := s.freeFastChunks - 1 }
        exact ⟨hrest.count, hrest.tails, hrest.samples, hrest.windowSize, hrest.currentLoc,
          hrest.regions⟩

/-! ## The whole allocation -/

theorem getLast?_nodesOf {p : RegionPtr} {region : ShamblesRegion} (h : region.chunks ≠ []) :
    (nodesOf p region).getLast? = some ⟨p, region.nChunks - 1⟩ := by
  have hpos : region.nChunks - 1 + 1 = region.nChunks := by
    have := List.length_pos_iff.2 h
    simp only [ShamblesRegion.nChunks]
    omega
  rw [nodesOf, ← hpos, List.range_succ, List.map_append]
  simp

/-- The region's nodes go behind all others, with count 0. -/
theorem Valid.allocRegion_spec {C : Nat} {s : State} {F S : List NodePtr} {p : RegionPtr}
    {region : ShamblesRegion} (h : Valid s F S) (hview : Lru.Represents C (lruView s) F S)
    (hC : 1 ≤ C) (hfresh : ∀ n ∈ F ++ S, n.region ≠ p) (hregion : region.chunks ≠ []) :
    ∃ s' F' S', allocRegion s p region = some s' ∧ Valid s' F' S' ∧
      Lru.Represents C (lruView s') F' S' ∧ F' ++ S' = F ++ S ++ nodesOf p region ∧
      (∀ n ∈ F ++ S, s'.count n = s.count n) ∧ (∀ n ∈ nodesOf p region, s'.count n = 0) ∧
      s'.samples = s.samples ∧ s'.currentLoc = s.currentLoc ∧ s'.windowSize = s.windowSize ∧
      s'.regions = (p, region) :: s.regions := by
  have hnew : ∀ n ∈ nodesOf p region, n ∉ F ++ S := by
    intro n hn hold
    exact hfresh n hold (mem_nodesOf.1 hn).1
  -- The first loop writes no list, so the lists still represent the old nodes.
  let s₁ := initNodes { s with regions := (p, region) :: s.regions } p region
  have hview₁ : Lru.Represents C (lruView s₁) F S :=
    hview.congr rfl rfl rfl (fun _ _ => rfl) rfl
  rcases hview₁.place_all (nodup_nodesOf p region) hnew with ⟨F', S', hrep, horder⟩
  let s₂ := placeSlow (placeFast s₁ (nodesOf p region)).1 (placeFast s₁ (nodesOf p region)).2
  have hsame : SameIndex s₁ s₂ := (placeFast_sameIndex _ s₁).trans (placeSlow_sameIndex _ _)
  have hrep₂ : Lru.Represents C (lruView s₂) F' S' := by
    have hfast := placeFast_view (nodesOf p region) s₁
    rw [placeSlow_view, hfast.1, hfast.2]
    exact hrep
  have hold : ∀ n ∈ F ++ S, s₂.count n = s.count n := by
    intro n hn
    rw [hsame.count]
    exact if_neg (fun hin => hfresh n hn hin.1)
  have hzero : ∀ n ∈ nodesOf p region, s₂.count n = 0 := by
    intro n hn
    rw [hsame.count]
    exact if_pos (mem_nodesOf.1 hn)
  have hwindow : s₂.windowSize = s.windowSize := hsame.windowSize
  have htails : s₂.tails = index s₂.count (s.windowSize + 1) (F ++ S) := by
    rw [hsame.tails]
    exact h.tails.trans (index_congr (fun n hn => (hold n hn).symm))
  have hlen : 0 < s₂.tails.length := by
    rw [htails, length_index]
    omega
  refine ⟨_, F', S', setTail_eq hlen _, ?_, hrep₂, horder, hold, hzero, hsame.samples,
    hsame.currentLoc, hwindow, hsame.regions⟩
  refine ⟨⟨hrep₂.lists, hrep₂.loc_fast, hrep₂.loc_slow, ?_, ?_, ?_⟩, ?_⟩
  · change Ranked s₂.count (F' ++ S')
    rw [horder]
    exact (h.ranked.congr hold).append_zero hzero
  · intro n hn
    change s₂.count n ≤ s₂.windowSize
    rw [horder] at hn
    rcases List.mem_append.1 hn with hn | hn
    · rw [hold n hn, hwindow]
      exact h.bounded n hn
    · rw [hzero n hn]
      exact Nat.zero_le _
  · change s₂.tails.set 0 _ = index s₂.count (s₂.windowSize + 1) (F' ++ S')
    rw [htails, horder, hwindow]
    exact index_append hzero (getLast?_nodesOf hregion)
  · intro hS'
    rcases List.exists_mem_of_ne_nil S' hS' with ⟨n, hn⟩
    have hfull := hrep₂.length_eq_of_mem hn
    exact List.length_pos_iff.1 (by omega)

end Window
end Shambles
