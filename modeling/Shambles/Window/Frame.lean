import Shambles.Window.Ranking

/-!
# Frame — what the functions of the window plugin leave alone

No function of `window.c` looks at the ring of samples and at the lists at the same time.  Whatever
state the lists are in, a demotion or a promotion changes one count by one, and it issues bindings
only when it exchanges two chunks.

* `Untouched`: links, tags and entries of `tails` may have changed, nothing else has.
* `demote_cases`, `promote_cases`, `handleSample_cases`: everything a sample can do, up to that.
-/

namespace Shambles
namespace Window

open Plugins Structures

/-- Configuration, ring and regions are as before. -/
structure Quiet (s s' : State) : Prop where
  rest : SameRest s s'
  tails_length : s'.tails.length = s.tails.length
  chunkSize : s'.chunkSize = s.chunkSize

structure Untouched (s s' : State) : Prop extends Quiet s s' where
  count : s'.count = s.count
  trace : s'.trace = s.trace

theorem Quiet.refl (s : State) : Quiet s s :=
  ⟨⟨rfl, rfl, rfl, rfl, rfl, rfl⟩, rfl, rfl⟩

theorem Quiet.trans {s₁ s₂ s₃ : State} (h₁ : Quiet s₁ s₂) (h₂ : Quiet s₂ s₃) : Quiet s₁ s₃ where
  rest :=
    ⟨h₂.rest.freeFastChunks.trans h₁.rest.freeFastChunks, h₂.rest.chunk.trans h₁.rest.chunk,
      h₂.rest.samples.trans h₁.rest.samples, h₂.rest.windowSize.trans h₁.rest.windowSize,
      h₂.rest.currentLoc.trans h₁.rest.currentLoc, h₂.rest.regions.trans h₁.rest.regions⟩
  tails_length := h₂.tails_length.trans h₁.tails_length
  chunkSize := h₂.chunkSize.trans h₁.chunkSize

theorem Quiet.emit (s : State) (es : List Effect) : Quiet s (s.emit es) :=
  ⟨⟨rfl, rfl, rfl, rfl, rfl, rfl⟩, rfl, rfl⟩

namespace Untouched

theorem refl (s : State) : Untouched s s :=
  ⟨Quiet.refl s, rfl, rfl⟩

theorem trans {s₁ s₂ s₃ : State} (h₁ : Untouched s₁ s₂) (h₂ : Untouched s₂ s₃) :
    Untouched s₁ s₃ :=
  ⟨h₁.toQuiet.trans h₂.toQuiet, h₂.count.trans h₁.count, h₂.trace.trans h₁.trace⟩

/-- A change of links, list heads and tags. -/
theorem of_lists {s s' : State}
    (h : s' = { s with
      links := s'.links, fastList := s'.fastList, slowList := s'.slowList, loc := s'.loc }) :
    Untouched s s' := by
  rw [h]
  exact ⟨⟨⟨rfl, rfl, rfl, rfl, rfl, rfl⟩, rfl, rfl⟩, rfl, rfl⟩

section Functions

variable {s s' : State} {node after : NodePtr}

theorem setTail {k : Nat} {v : Option NodePtr} (h : s.setTail k v = some s') :
    Untouched s s' := by
  unfold State.setTail at h
  split at h
  · obtain rfl := Option.some.inj h
    exact ⟨⟨⟨rfl, rfl, rfl, rfl, rfl, rfl⟩, List.length_set, rfl⟩, rfl, rfl⟩
  · cases h

theorem replaceTail {v : Option (Option NodePtr)} (h : replaceTail s node v = some s') :
    Untouched s s' := by
  rcases Option.bind_eq_some_iff.1 h with ⟨own, -, h⟩
  split at h
  · rcases Option.bind_eq_some_iff.1 h with ⟨t, -, h⟩
    exact setTail h
  · obtain rfl := Option.some.inj h
    exact refl s

theorem relink (s : State) (node after : NodePtr) : Untouched s (relink s node after) := by
  unfold Window.relink
  split_ifs
  · exact of_lists rfl
  · exact of_lists rfl
  · exact of_lists rfl

theorem insertSlow (s : State) (node after : NodePtr) : Untouched s (insertSlow s node after) := by
  unfold Window.insertSlow
  split_ifs
  · exact of_lists rfl
  · exact of_lists rfl

theorem promoteBehind (s : State) (node after : NodePtr) :
    Untouched s (promoteBehind s node after) := by
  unfold Window.promoteBehind
  split_ifs
  · exact of_lists rfl
  · exact of_lists rfl

theorem demoteInPlace (h : demoteInPlace s node = some s') : Untouched s s' := by
  rcases Option.bind_eq_some_iff.1 h with ⟨below, -, h⟩
  rcases Option.bind_eq_some_iff.1 h with ⟨own, -, h⟩
  cases below with
  | none =>
      dsimp only at h
      split at h
      · rcases Option.bind_eq_some_iff.1 h with ⟨t, -, h⟩
        rcases Option.bind_eq_some_iff.1 h with ⟨s₁, hs₁, h⟩
        exact (setTail hs₁).trans (setTail h)
      · rcases Option.bind_eq_some_iff.1 h with ⟨t, -, h⟩
        exact (relink s node t).trans (setTail h)
  | some t =>
      rcases Option.bind_eq_some_iff.1 h with ⟨s₁, hs₁, h⟩
      exact ((replaceTail hs₁).trans (relink s₁ node t)).trans (setTail h)

theorem demoteSwap {head : NodePtr} (h : demoteSwap s node head = some s') :
    Untouched (demoteExchange s node head) s' := by
  rcases Option.bind_eq_some_iff.1 h with ⟨s₂, hs₂, h⟩
  rcases Option.bind_eq_some_iff.1 h with ⟨below, -, h⟩
  refine (replaceTail hs₂).trans ?_
  cases below with
  | none =>
      rcases Option.bind_eq_some_iff.1 h with ⟨own, -, h⟩
      rcases Option.bind_eq_some_iff.1 h with ⟨t, -, h⟩
      exact (insertSlow s₂ node t).trans (setTail h)
  | some t => exact (insertSlow s₂ node t).trans (setTail h)

theorem promoteInPlace (h : promoteInPlace s node = some s') : Untouched s s' := by
  rcases Option.bind_eq_some_iff.1 h with ⟨next, -, h⟩
  cases next with
  | none =>
      rcases Option.bind_eq_some_iff.1 h with ⟨s₁, hs₁, h⟩
      rcases Option.bind_eq_some_iff.1 h with ⟨found, -, h⟩
      refine (replaceTail hs₁).trans ?_
      cases found with
      | none =>
          have hfront : Untouched s₁ ((s₁.dqFast node).pushFast node) := of_lists rfl
          exact hfront.trans (setTail h)
      | some t => exact (promoteBehind s₁ node t).trans (setTail h)
  | some t =>
      rcases Option.bind_eq_some_iff.1 h with ⟨s₁, hs₁, h⟩
      exact ((replaceTail hs₁).trans (promoteBehind s₁ node t)).trans (setTail h)

theorem promoteSwap {tail : NodePtr} (h : promoteSwap s node tail = some s') :
    Untouched (promoteExchange s node tail) s' := by
  rcases Option.bind_eq_some_iff.1 h with ⟨s₂, hs₂, h⟩
  rcases Option.bind_eq_some_iff.1 h with ⟨found, -, h⟩
  refine (replaceTail hs₂).trans ?_
  cases found with
  | none =>
      have hfront : Untouched s₂ (s₂.pushFast node) := of_lists rfl
      exact hfront.trans (setTail h)
  | some t =>
      have hbehind : Untouched s₂ (s₂.insert node t) := of_lists rfl
      exact hbehind.trans (setTail h)

theorem freeChunk (h : freeChunk s node = some s') : Untouched s s' := by
  have hleave : Untouched s ((s.setLoc node .slow).dqSlow node) := of_lists rfl
  exact hleave.trans (replaceTail h)

theorem freeChunks {ns : List NodePtr} :
    ∀ {s : State}, ns.foldlM Window.freeChunk s = some s' → Untouched s s' := by
  induction ns with
  | nil =>
      intro s h
      obtain rfl := Option.some.inj h
      exact refl s
  | cons n rest ih =>
      intro s h
      rcases Option.bind_eq_some_iff.1 h with ⟨s₁, hs₁, h⟩
      exact (freeChunk hs₁).trans (ih h)

end Functions

end Untouched

/-! ## What a sample does -/

section Cases

variable {s s' : State} {node : NodePtr}

theorem demote_cases (h : demote s node = some s') :
    s.count node ≠ 0 ∧ ∃ s₁, s' = s₁.setCount node (s.count node - 1) ∧
      (Untouched s s₁ ∨ ∃ head, Untouched (demoteExchange s node head) s₁) := by
  unfold demote at h
  dsimp only at h
  split at h
  · cases h
  · rename_i hpos
    refine ⟨hpos, ?_⟩
    split at h
    · -- a fast node, with a slow one to change places with
      split at h
      · rcases Option.bind_eq_some_iff.1 h with ⟨s₁, hs₁, h⟩
        exact ⟨s₁, (Option.some.inj h).symm, Or.inl (Untouched.demoteInPlace hs₁)⟩
      · rcases Option.bind_eq_some_iff.1 h with ⟨s₁, hs₁, h⟩
        exact ⟨s₁, (Option.some.inj h).symm, Or.inr ⟨_, Untouched.demoteSwap hs₁⟩⟩
    · rcases Option.bind_eq_some_iff.1 h with ⟨s₁, hs₁, h⟩
      exact ⟨s₁, (Option.some.inj h).symm, Or.inl (Untouched.demoteInPlace hs₁)⟩

theorem promote_cases (h : promote s node = some s') :
    ∃ s₁, s' = s₁.setCount node (s.count node + 1) ∧
      (Untouched s s₁ ∨ ∃ tail, Untouched (promoteExchange s node tail) s₁) := by
  unfold promote at h
  dsimp only at h
  cases hloc : s.loc node with
  | fast =>
      simp only [hloc] at h
      rcases Option.bind_eq_some_iff.1 h with ⟨s₁, hs₁, h⟩
      exact ⟨s₁, (Option.some.inj h).symm, Or.inl (Untouched.promoteInPlace hs₁)⟩
  | slow =>
      simp only [hloc] at h
      rcases Option.bind_eq_some_iff.1 h with ⟨tail, -, h⟩
      split at h
      · rcases Option.bind_eq_some_iff.1 h with ⟨s₁, hs₁, h⟩
        exact ⟨s₁, (Option.some.inj h).symm, Or.inl (Untouched.promoteInPlace hs₁)⟩
      · rcases Option.bind_eq_some_iff.1 h with ⟨s₁, hs₁, h⟩
        exact ⟨s₁, (Option.some.inj h).symm, Or.inr ⟨tail, Untouched.promoteSwap hs₁⟩⟩

theorem demoteExchange_quiet (s : State) (node head : NodePtr) :
    Quiet s (demoteExchange s node head) :=
  ⟨⟨rfl, rfl, rfl, rfl, rfl, rfl⟩, rfl, rfl⟩

theorem promoteExchange_quiet (s : State) (node tail : NodePtr) :
    Quiet s (promoteExchange s node tail) :=
  ⟨⟨rfl, rfl, rfl, rfl, rfl, rfl⟩, rfl, rfl⟩

/-- The count that is written last is the only one that changes. -/
theorem Untouched.setCount {s₁ : State} (h : Untouched s s₁) (node : NodePtr) (k : Nat) :
    Quiet s (s₁.setCount node k) ∧
      (s₁.setCount node k).count = Function.update s.count node k := by
  refine ⟨h.toQuiet.trans ⟨⟨rfl, rfl, rfl, rfl, rfl, rfl⟩, rfl, rfl⟩, ?_⟩
  rw [State.setCount, h.count]

theorem demote_counts (h : demote s node = some s') :
    Quiet s s' ∧ s.count node ≠ 0 ∧
      s'.count = Function.update s.count node (s.count node - 1) := by
  rcases demote_cases h with ⟨hpos, s₁, rfl, hsame | ⟨head, hsame⟩⟩
  · rcases hsame.setCount node (s.count node - 1) with ⟨hquiet, hcount⟩
    exact ⟨hquiet, hpos, hcount⟩
  · rcases hsame.setCount node (s.count node - 1) with ⟨hquiet, hcount⟩
    exact ⟨(demoteExchange_quiet s node head).trans hquiet, hpos, hcount⟩

theorem promote_counts (h : promote s node = some s') :
    Quiet s s' ∧ s'.count = Function.update s.count node (s.count node + 1) := by
  rcases promote_cases h with ⟨s₁, rfl, hsame | ⟨tail, hsame⟩⟩
  · exact hsame.setCount node (s.count node + 1)
  · rcases hsame.setCount node (s.count node + 1) with ⟨hquiet, hcount⟩
    exact ⟨(promoteExchange_quiet s node tail).trans hquiet, hcount⟩

/-- The entry of the ring that is overwritten takes one off the count of its chunk. -/
theorem leaveRing_counts {old : Option NodePtr} (h : leaveRing s old = some s') :
    Quiet s s' ∧ ∀ n, s'.count n = s.count n - if old = some n then 1 else 0 := by
  cases old with
  | none =>
      obtain rfl := Option.some.inj h
      exact ⟨Quiet.refl _, by simp⟩
  | some node =>
      rcases demote_counts h with ⟨hquiet, _, hcount⟩
      refine ⟨hquiet, ?_⟩
      intro n
      by_cases hn : node = n
      · simp [hcount, hn]
      · have hne : n ≠ node := fun h => hn h.symm
        simp [hcount, hn, hne]

/-- The state behind the `LOG_SAMPLE` of a tracked chunk. -/
def logged (s : State) (addr : Nat) (node : NodePtr) : State :=
  s.emit [.logSample addr ⟨true, s.loc node = .fast⟩]

theorem handleSample_cases {addr : Nat} (h : handleSample s addr (some node) = some s') :
    ∃ old, s.samples[s.currentLoc]? = some old ∧
      ((old = some node ∧ s' = (logged s addr node).advance) ∨
        (old ≠ some node ∧ ∃ s₂ s₃ s₄, leaveRing (logged s addr node) old = some s₂ ∧
          s₂.setSample node = some s₃ ∧ promote s₃ node = some s₄ ∧ s' = s₄.advance)) := by
  rcases Option.bind_eq_some_iff.1 h with ⟨old, hold, h⟩
  rw [State.getSample_option] at hold
  refine ⟨old, hold, ?_⟩
  split at h
  · rename_i hsame
    exact Or.inl ⟨hsame, (Option.some.inj h).symm⟩
  · rename_i hdiff
    rcases Option.bind_eq_some_iff.1 h with ⟨s₂, hs₂, h⟩
    rcases Option.bind_eq_some_iff.1 h with ⟨s₃, hs₃, h⟩
    rcases Option.bind_eq_some_iff.1 h with ⟨s₄, hs₄, h⟩
    exact Or.inr ⟨hdiff, s₂, s₃, s₄, hs₂, hs₃, hs₄, (Option.some.inj h).symm⟩

end Cases

end Window
end Shambles
