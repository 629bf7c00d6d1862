import Shambles.Window.Faults
import Shambles.Window.Moves

/-!
# Bounds — array accesses of the window plugin

Which accesses of `handleSample` to `tails` and `samples` are out of bounds, in runs without a
release.

1. `promote_fault_iff`: what is out of bounds in a promotion.
2. `Overruns`, a condition on the state before the sample, and what the demotion makes of it
   (`leave_fast_iff`, `leave_tails`).
3. `array_bounds_iff`: the one access out of bounds is `tails[windowSize + 1]`, on a sample of a fast
   chunk that already fills the rest of the ring.
-/

namespace Shambles
namespace Window

open AssocList Plugins RankedList RingBuffer Structures

/-! ## The one access out of bounds -/

section Overrun

variable {W : Nat} {s : State} {node x : NodePtr}

/-- A node with `windowSize - 1` entries, and no node with `windowSize`: the search for a class
above starts behind the end of `tails`. -/
theorem promoteInPlace_overruns (hshape : Shaped W s) (hnode : s.count node + 1 = W)
    (hnone : s.tails[W]? = some none) :
    (promoteInPlace s node : Except Fault State) = .error (.tails (W + 1)) := by
  have hlength := hshape.tails_length
  have hlt : s.count node < s.tails.length := by omega
  have hnext : (s.getTail (s.count node + 1) : Except Fault _) = .ok none := by
    rw [State.getTail, hnode, hnone]
    rfl
  -- the own entry of `node` is in bounds and needs no pointer
  have hreplace : ∃ s₁, (replaceTail s node (pure (otherPrevInClass s node)) :
      Except Fault State) = .ok s₁ := by
    have hread : (s.getTail (s.count node) : Except Fault _) = .ok s.tails[s.count node] := by
      rw [State.getTail, List.getElem?_eq_getElem hlt]
      rfl
    rw [replaceTail, hread, ok_bind]
    split_ifs
    · exact ⟨{ s with tails := s.tails.set (s.count node) (otherPrevInClass s node) },
        if_pos hlt⟩
    · exact ⟨s, rfl⟩
  rcases hreplace with ⟨s₁, hs₁⟩
  have hsame := Untouched.replaceTail (some_of_ok (toOption_replaceTail s node rfl) hs₁)
  have hwindow₁ : s₁.windowSize = W := hsame.rest.windowSize.trans hshape.window
  have hsteps : s₁.windowSize - (s.count node + 2) = 0 := by omega
  have hout : s₁.tails[s.count node + 2]? = none := by
    refine List.getElem?_eq_none ?_
    rw [hsame.tails_length]
    omega
  have hsearch : (searchTail s₁.tails (s₁.windowSize - (s.count node + 2)) (s.count node + 2) :
      Except Fault _) = .error (.tails (W + 1)) := by
    rw [hsteps, searchTail, hout, ← hnode]
    rfl
  simp only [promoteInPlace, hnext, hs₁, hsearch, ok_bind, error_bind]

/-- A slow chunk is moved in place only below a count that is higher, so the search starts inside
the array. -/
theorem InBounds.promote (hshape : Shaped W s) (hcounts : ∀ n, s.count n + 1 ≤ W)
    (hroom : s.loc node = .fast →
      s.count node + 2 ≤ W ∨ s.tails[s.count node + 1]? ≠ some none) :
    InBounds (promote s node) := by
  have hinPlace : s.count node + 2 ≤ W ∨ s.tails[s.count node + 1]? ≠ some none →
      InBounds (Window.promoteInPlace s node >>= fun s₁ =>
        pure (s₁.setCount node (s.count node + 1))) := by
    intro hroom
    exact bind (promoteInPlace hshape (hcounts node) hroom) (fun s₁ _ => ok _)
  unfold Window.promote
  cases hloc : s.loc node with
  | fast => exact hinPlace (hroom hloc)
  | slow =>
      refine bind (deref _) ?_
      intro tail _
      dsimp only
      split_ifs with hhigh
      · have := hcounts tail
        exact hinPlace (Or.inl (by omega))
      · exact bind (promoteSwap hshape (hcounts node) tail) (fun s₁ _ => ok _)

/-- What is out of bounds in a promotion when no count is `windowSize` yet. -/
theorem promote_fault_iff (hshape : Shaped W s) (hcounts : ∀ n, s.count n + 1 ≤ W)
    {g : State → State} {f : Fault} (hf : f ≠ .null) :
    (promote s node >>= fun s₁ => pure (g s₁) : Except Fault State) = .error f ↔
      f = .tails (W + 1) ∧ s.count node + 1 = W ∧ s.loc node = .fast ∧
        s.tails[W]? = some none := by
  by_cases hover : s.count node + 1 = W ∧ s.loc node = .fast ∧ s.tails[W]? = some none
  · rcases hover with ⟨hfull, hloc, hnone⟩
    have herror : (promote s node : Except Fault State) = .error (.tails (W + 1)) := by
      simp only [promote, hloc, promoteInPlace_overruns hshape hfull hnone, error_bind]
    rw [herror, error_bind, Except.error.injEq]
    exact ⟨fun h => ⟨h.symm, hfull, hloc, hnone⟩, fun h => h.1.symm⟩
  · have hbounds : InBounds (promote s node >>= fun s₁ => pure (g s₁)) := by
      refine InBounds.bind (InBounds.promote hshape hcounts ?_) (fun s₁ _ => InBounds.ok _)
      intro hloc
      by_cases hfull : s.count node + 1 = W
      · rw [hfull]
        exact Or.inr (fun hnone => hover ⟨hfull, hloc, hnone⟩)
      · have := hcounts node
        exact Or.inl (by omega)
    exact iff_of_false (fun h => hf (hbounds f h)) (fun h => hover h.2)

end Overrun

/-! ## What a demotion changes in `loc` and `tails` -/

/-- The tags are as before, and so are the entries of `tails` above `k`. -/
structure SameAbove (k : Nat) (s s' : State) : Prop where
  loc : s'.loc = s.loc
  tails : ∀ j, k < j → s'.tails[j]? = s.tails[j]?

namespace SameAbove

variable {k : Nat} {s s' : State} {node : NodePtr}

theorem trans {s₁ s₂ s₃ : State} (h₁ : SameAbove k s₁ s₂) (h₂ : SameAbove k s₂ s₃) :
    SameAbove k s₁ s₃ :=
  ⟨h₂.loc.trans h₁.loc, fun j hj => (h₂.tails j hj).trans (h₁.tails j hj)⟩

theorem setTail {i : Nat} {v : Option NodePtr} (h : s.setTail i v = some s') (hi : i ≤ k) :
    SameAbove k s s' := by
  unfold State.setTail at h
  split at h
  · obtain rfl := Option.some.inj h
    exact ⟨rfl, fun j hj => List.getElem?_set_ne (by omega)⟩
  · cases h

theorem replaceTail {v : Option (Option NodePtr)} (h : replaceTail s node v = some s')
    (hk : s.count node ≤ k) : SameAbove k s s' := by
  rcases Option.bind_eq_some_iff.1 h with ⟨own, -, h⟩
  split at h
  · rcases Option.bind_eq_some_iff.1 h with ⟨t, -, h⟩
    exact setTail h hk
  · obtain rfl := Option.some.inj h
    exact ⟨rfl, fun _ _ => rfl⟩

theorem relink (k : Nat) (s : State) (node after : NodePtr) :
    SameAbove k s (relink s node after) := by
  unfold Window.relink
  split_ifs
  · exact ⟨rfl, fun _ _ => rfl⟩
  · exact ⟨rfl, fun _ _ => rfl⟩
  · exact ⟨rfl, fun _ _ => rfl⟩

theorem insertSlow (k : Nat) (s : State) (node after : NodePtr) :
    SameAbove k s (insertSlow s node after) := by
  unfold Window.insertSlow
  split_ifs
  · exact ⟨rfl, fun _ _ => rfl⟩
  · exact ⟨rfl, fun _ _ => rfl⟩

theorem demoteInPlace (h : demoteInPlace s node = some s') : SameAbove (s.count node) s s' := by
  rcases Option.bind_eq_some_iff.1 h with ⟨below, -, h⟩
  rcases Option.bind_eq_some_iff.1 h with ⟨own, -, h⟩
  cases below with
  | none =>
      dsimp only at h
      split at h
      · rcases Option.bind_eq_some_iff.1 h with ⟨t, -, h⟩
        rcases Option.bind_eq_some_iff.1 h with ⟨s₁, hs₁, h⟩
        exact (setTail hs₁ le_rfl).trans (setTail h (Nat.sub_le _ _))
      · rcases Option.bind_eq_some_iff.1 h with ⟨t, -, h⟩
        exact (relink _ s node t).trans (setTail h (Nat.sub_le _ _))
  | some t =>
      rcases Option.bind_eq_some_iff.1 h with ⟨s₁, hs₁, h⟩
      exact ((replaceTail hs₁ le_rfl).trans (relink _ s₁ node t)).trans
        (setTail h (Nat.sub_le _ _))

theorem demoteSwap {head : NodePtr} (h : demoteSwap s node head = some s') :
    SameAbove (s.count node) (demoteExchange s node head) s' := by
  rcases Option.bind_eq_some_iff.1 h with ⟨s₂, hs₂, h⟩
  rcases Option.bind_eq_some_iff.1 h with ⟨below, -, h⟩
  have hs₂ : SameAbove (s.count node) (demoteExchange s node head) s₂ := replaceTail hs₂ le_rfl
  refine hs₂.trans ?_
  cases below with
  | none =>
      rcases Option.bind_eq_some_iff.1 h with ⟨own, -, h⟩
      rcases Option.bind_eq_some_iff.1 h with ⟨t, -, h⟩
      exact (insertSlow _ s₂ node t).trans (setTail h (Nat.sub_le _ _))
  | some t => exact (insertSlow _ s₂ node t).trans (setTail h (Nat.sub_le _ _))

end SameAbove

section Demotion

variable {s s' : State} {node x : NodePtr}

theorem demote_tails (h : demote s node = some s') {j : Nat} (hj : s.count node < j) :
    s'.tails[j]? = s.tails[j]? := by
  unfold demote at h
  dsimp only at h
  split at h
  · cases h
  · split at h
    · split at h
      · rcases Option.bind_eq_some_iff.1 h with ⟨s₁, hs₁, h⟩
        obtain rfl := Option.some.inj h
        exact (SameAbove.demoteInPlace hs₁).tails j hj
      · rcases Option.bind_eq_some_iff.1 h with ⟨s₁, hs₁, h⟩
        obtain rfl := Option.some.inj h
        exact (SameAbove.demoteSwap hs₁).tails j hj
    · rcases Option.bind_eq_some_iff.1 h with ⟨s₁, hs₁, h⟩
      obtain rfl := Option.some.inj h
      exact (SameAbove.demoteInPlace hs₁).tails j hj

/-- A chunk that leaves the ring for good changes places with the head of the slow list, if it is
fast and there is one. -/
theorem demote_fast_iff (h : demote s node = some s') (hlast : s.count node = 1) (hx : x ≠ node) :
    s'.loc x = .fast ↔ s.loc x = .fast ∨ s.slowList = some x ∧ s.loc node = .fast := by
  simp only [demote, hlast, Nat.one_ne_zero, if_false, Nat.sub_self, Nat.not_lt_zero] at h
  cases hloc : s.loc node with
  | slow =>
      simp only [hloc] at h
      rcases Option.bind_eq_some_iff.1 h with ⟨s₁, hs₁, h⟩
      obtain rfl := Option.some.inj h
      simp [State.setCount, (SameAbove.demoteInPlace hs₁).loc]
  | fast =>
      cases hhead : s.slowList with
      | none =>
          simp only [hloc, hhead] at h
          rcases Option.bind_eq_some_iff.1 h with ⟨s₁, hs₁, h⟩
          obtain rfl := Option.some.inj h
          simp [State.setCount, (SameAbove.demoteInPlace hs₁).loc]
      | some head =>
          simp only [hloc, hhead] at h
          rcases Option.bind_eq_some_iff.1 h with ⟨s₁, hs₁, h⟩
          obtain rfl := Option.some.inj h
          have hswap : s₁.loc x = Function.update s.loc head .fast x := by
            rw [(SameAbove.demoteSwap hs₁).loc]
            exact Function.update_of_ne hx _ _
          show s₁.loc x = .fast ↔ _
          rw [hswap]
          by_cases hxh : x = head
          · simp [hxh]
          · have hhx : head ≠ x := fun h => hxh h.symm
            simp [hxh, hhx]

end Demotion

/-! ## Samples -/

/-- What runs without a release keep: every count is the number of entries in the ring. -/
structure CountsAll (W : Nat) (s : State) : Prop where
  shaped : Shaped W s
  sampled : ∀ n, some n ∈ s.samples → LiveNode s.regions n
  counted : ∀ n, s.count n = s.samples.count (some n)

/-- What leads a sample of `x` to `tails[windowSize + 1]`: the entry to be overwritten is not one of
`x`, all others are; `x` is fast, or will be because it heads the slow list when a fast chunk leaves
the ring; and no node is the last of the class `windowSize` (in a window of one sample the node that
was leaves the ring). -/
structure Overruns (s : State) (x : NodePtr) : Prop where
  other : s.samples[s.currentLoc]? ≠ some (some x)
  full : s.count x + 1 = s.windowSize
  fast : s.loc x = .fast ∨
    s.slowList = some x ∧ ∃ o, s.samples[s.currentLoc]? = some (some o) ∧ s.loc o = .fast
  top : s.windowSize = 1 ∨ s.tails[s.windowSize]? = some none

namespace CountsAll

variable {W : Nat} {s : State} {x : NodePtr}

theorem agrees (h : CountsAll W s) : Agrees s :=
  ⟨h.sampled, fun n _ => h.counted n⟩

theorem remaining_lt (h : CountsAll W s) (n : NodePtr) : remaining s n + 1 ≤ W := by
  have hpos := h.shaped.currentLoc_lt
  have hnone : none ∈ s.samples.set s.currentLoc none := List.mem_set hpos none
  have hlt : (s.samples.set s.currentLoc none).count (some n) <
      (s.samples.set s.currentLoc none).length :=
    List.count_lt_length_iff.2 ⟨none, hnone, nofun⟩
  rw [List.length_set, h.shaped.ring_length] at hlt
  exact hlt

theorem remaining_eq (h : CountsAll W s) (hother : s.samples[s.currentLoc]? ≠ some (some x)) :
    remaining s x = s.count x := by
  rw [remaining, count_set_none h.shaped.currentLoc_lt, if_neg hother, h.counted x, Nat.sub_zero]

section Leave

variable {addr : Nat} {old : Option NodePtr} {s₁ : State}

theorem leave (h : CountsAll W s) (hentry : s.samples[s.currentLoc]? = some old)
    (hs₁ : leaveRing (logged s addr x) old = some s₁) :
    Shaped W s₁ ∧ ∀ n, s₁.count n = remaining s n := by
  rcases leaveRing_counts hs₁ with ⟨hquiet, hcount⟩
  refine ⟨(h.shaped.quiet (Quiet.emit s _)).quiet hquiet, ?_⟩
  intro n
  rw [hcount, remaining, count_set_none h.shaped.currentLoc_lt, hentry, ← h.counted n]
  simp [logged, State.emit]

/-- The chunk of the overwritten entry has no other one if those of `x` fill the ring. -/
theorem count_overwritten (h : CountsAll W s) {o : NodePtr}
    (hentry : s.samples[s.currentLoc]? = some (some o)) (hne : o ≠ x) (hfull : s.count x + 1 = W) :
    s.count o = 1 := by
  have hpos : 0 < s.samples.count (some o) :=
    List.count_pos_iff.2 (List.mem_of_getElem? hentry)
  have hsum : s.samples.count (some o) + s.samples.count (some x) ≤ s.samples.length :=
    count_add_count_le (by simpa using hne)
  rw [h.shaped.ring_length] at hsum
  rw [h.counted] at hfull ⊢
  omega

/-- Whether `x` is fast once the overwritten entry is gone. -/
theorem leave_fast_iff (h : CountsAll W s) (hentry : s.samples[s.currentLoc]? = some old)
    (hne : old ≠ some x) (hfull : s.count x + 1 = W)
    (hs₁ : leaveRing (logged s addr x) old = some s₁) :
    s₁.loc x = .fast ↔ s.loc x = .fast ∨
      s.slowList = some x ∧ ∃ o, s.samples[s.currentLoc]? = some (some o) ∧ s.loc o = .fast := by
  cases old with
  | none =>
      obtain rfl := Option.some.inj hs₁
      simp [logged, State.emit, hentry]
  | some o =>
      have hxo : x ≠ o := fun heq => hne (by rw [heq])
      have hone : (logged s addr x).count o = 1 := h.count_overwritten hentry hxo.symm hfull
      rw [demote_fast_iff hs₁ hone hxo]
      simp [logged, State.emit, hentry]

/-- In a window of at least two the class `windowSize` is not concerned. -/
theorem leave_tails (h : CountsAll W s) (hW : 2 ≤ W)
    (hentry : s.samples[s.currentLoc]? = some old) (hne : old ≠ some x)
    (hfull : s.count x + 1 = W) (hs₁ : leaveRing (logged s addr x) old = some s₁) :
    s₁.tails[W]? = s.tails[W]? := by
  cases old with
  | none =>
      obtain rfl := Option.some.inj hs₁
      rfl
  | some o =>
      have hxo : o ≠ x := fun heq => hne (by rw [heq])
      have hone : (logged s addr x).count o = 1 := h.count_overwritten hentry hxo hfull
      exact demote_tails hs₁ (by omega)

theorem leave_inBounds (h : CountsAll W s) (hentry : s.samples[s.currentLoc]? = some old) :
    InBounds (leaveRing (logged s addr x) old) := by
  cases old with
  | none => exact InBounds.ok _
  | some o =>
      have hmem : some o ∈ s.samples := List.mem_of_getElem? hentry
      have hle : s.samples.count (some o) ≤ s.samples.length := List.count_le_length
      have hpos : 0 < s.samples.count (some o) := List.count_pos_iff.2 hmem
      have hlength := h.shaped.ring_length
      have htails := h.shaped.tails_length
      have hcount := h.counted o
      refine InBounds.demote ?_ ?_
      · show s.count o < s.tails.length
        omega
      · show s.count o ≠ 0
        omega

/-- From a valid state the demotion goes through, and behind it no class `windowSize` is left. -/
theorem leave_valid (h : CountsAll W s) (hvalid : ValidState s)
    (hentry : s.samples[s.currentLoc]? = some old) :
    ∃ s₁, leaveRing (logged s addr x) old = some s₁ ∧ s₁.tails[W]? = some none := by
  have htop : ∀ {s₁ : State} {F S : List NodePtr},
      leaveRing (logged s addr x) old = some s₁ → Valid s₁ F S → s₁.tails[W]? = some none := by
    intro s₁ F S hs₁ hvalid₁
    rcases h.leave hentry hs₁ with ⟨hshape₁, hcount₁⟩
    rw [hvalid₁.tails_get hshape₁.window.ge, Option.some.injEq, lastOf_eq_none_iff]
    intro n _
    have := h.remaining_lt n
    rw [hcount₁]
    omega
  rcases hvalid with ⟨F, S, hv, hperm⟩
  have hlogged : Valid (logged s addr x) F S := hv.emit _
  cases old with
  | none => exact ⟨_, rfl, htop rfl hlogged⟩
  | some o =>
      have hmem : some o ∈ s.samples := List.mem_of_getElem? hentry
      have hlive : o ∈ liveNodes s.regions := (h.sampled o hmem).mem_liveNodes
      have hpos : 0 < (logged s addr x).count o := by
        show 0 < s.count o
        rw [h.counted]
        exact List.count_pos_iff.2 hmem
      rcases hlogged.demote_spec (hperm.symm.subset hlive) hpos with ⟨s₁, F₁, S₁, hs₁, hmoved⟩
      exact ⟨s₁, hs₁, htop hs₁ hmoved.valid⟩

end Leave

/-- A sample, from the entry of the ring it finds. -/
theorem handleSample_eq {addr : Nat} {old : Option NodePtr}
    (hentry : s.samples[s.currentLoc]? = some old) :
    (handleSample s addr (some x) : Except Fault State) =
      if old = some x then pure (logged s addr x).advance
      else leaveRing (logged s addr x) old >>= fun s₂ =>
        s₂.setSample x >>= fun s₃ => promote s₃ x >>= fun s₄ => pure s₄.advance := by
  have hread : ((logged s addr x).getSample : Except Fault _) = .ok old := by
    show orFault _ s.samples[s.currentLoc]? = _
    rw [hentry]
    rfl
  show ((logged s addr x).getSample >>= _) = _
  rw [hread]
  rfl

/-- The fault of a sample whose demotion goes through. -/
theorem fault_of_leave (h : CountsAll W s) {addr : Nat} {old : Option NodePtr}
    (hentry : s.samples[s.currentLoc]? = some old) (hne : old ≠ some x) {s₂ : State}
    (hs₂ : (leaveRing (logged s addr x) old : Except Fault State) = .ok s₂) {f : Fault}
    (hf : f ≠ .null) :
    (handleSample s addr (some x) : Except Fault State) = .error f ↔
      f = .tails (W + 1) ∧ s.count x + 1 = W ∧ s₂.loc x = .fast ∧ s₂.tails[W]? = some none := by
  have hsome : leaveRing (logged s addr x) old = some s₂ :=
    some_of_ok (toOption_leaveRing _ _) hs₂
  rcases h.leave hentry hsome with ⟨hshape₂, hcount₂⟩
  have hset : (s₂.setSample x : Except Fault State) =
      .ok { s₂ with samples := s₂.samples.set s₂.currentLoc (some x) } := by
    rw [State.setSample, if_pos hshape₂.currentLoc_lt]
    rfl
  have hshape₃ : Shaped W { s₂ with samples := s₂.samples.set s₂.currentLoc (some x) } :=
    ⟨hshape₂.window, by simpa using hshape₂.ring_length, hshape₂.currentLoc, hshape₂.tails_length⟩
  have hcounts : ∀ n, s₂.count n + 1 ≤ W := by
    intro n
    rw [hcount₂]
    exact h.remaining_lt n
  have hremains : s₂.count x = s.count x := by
    rw [hcount₂]
    exact h.remaining_eq (by simpa [hentry] using hne)
  rw [handleSample_eq hentry, if_neg hne, hs₂, ok_bind, hset, ok_bind, ← hremains]
  exact promote_fault_iff hshape₃ hcounts hf

/-- A fault that is not a NULL pointer is that of an overrun. -/
theorem overruns_of_fault (h : CountsAll W s) (hW : 1 ≤ W) {addr : Nat} {f : Fault}
    (hf : f ≠ .null) (herror : (handleSample s addr (some x) : Except Fault State) = .error f) :
    f = .tails (W + 1) ∧ Overruns s x := by
  rcases h.shaped.entry with ⟨old, hentry⟩
  have hne : old ≠ some x := by
    intro hsame
    rw [handleSample_eq hentry, if_pos hsame] at herror
    cases herror
  cases hleave : (leaveRing (logged s addr x) old : Except Fault State) with
  | error g =>
      -- the demotion can only fail on a NULL pointer
      have hnull : g = .null := h.leave_inBounds hentry g hleave
      rw [handleSample_eq hentry, if_neg hne, hleave, error_bind, Except.error.injEq] at herror
      exact absurd (herror.symm.trans hnull) hf
  | ok s₂ =>
      rcases (h.fault_of_leave hentry hne hleave hf).1 herror with ⟨hindex, hfull, hfast, hnone⟩
      have hs₂ : leaveRing (logged s addr x) old = some s₂ :=
        some_of_ok (toOption_leaveRing _ _) hleave
      refine ⟨hindex, ?_, ?_, (h.leave_fast_iff hentry hne hfull hs₂).1 hfast, ?_⟩
      · rw [hentry]
        exact fun heq => hne (Option.some.inj heq)
      · rw [h.shaped.window]
        exact hfull
      · rw [h.shaped.window]
        rcases Nat.lt_or_ge 1 W with hlarge | hone
        · exact Or.inr ((h.leave_tails hlarge hentry hne hfull hs₂).symm.trans hnone)
        · exact Or.inl (le_antisymm hone hW)

/-- An overrun reads `tails[windowSize + 1]` if the demotion goes through with no node left in the
class `windowSize`. -/
theorem fault_of_overruns (h : CountsAll W s) (hover : Overruns s x) {addr : Nat}
    {old : Option NodePtr} (hentry : s.samples[s.currentLoc]? = some old) {s₂ : State}
    (hs₂ : (leaveRing (logged s addr x) old : Except Fault State) = .ok s₂)
    (hnone : s₂.tails[W]? = some none) :
    (handleSample s addr (some x) : Except Fault State) = .error (.tails (W + 1)) := by
  have hne : old ≠ some x := by
    rintro rfl
    exact hover.other hentry
  have hfull : s.count x + 1 = W := hover.full.trans h.shaped.window
  have hsome : leaveRing (logged s addr x) old = some s₂ :=
    some_of_ok (toOption_leaveRing _ _) hs₂
  exact (h.fault_of_leave hentry hne hs₂ (f := .tails (W + 1)) nofun).2
    ⟨rfl, hfull, (h.leave_fast_iff hentry hne hfull hsome).2 hover.fast, hnone⟩

theorem fault_or_null_of_overruns (h : CountsAll W s) (hW : 2 ≤ W) (hover : Overruns s x)
    (addr : Nat) :
    (handleSample s addr (some x) : Except Fault State) = .error .null ∨
      (handleSample s addr (some x) : Except Fault State) = .error (.tails (W + 1)) := by
  rcases h.shaped.entry with ⟨old, hentry⟩
  have hne : old ≠ some x := by
    rintro rfl
    exact hover.other hentry
  cases hleave : (leaveRing (logged s addr x) old : Except Fault State) with
  | error g =>
      have hnull : g = .null := h.leave_inBounds hentry g hleave
      left
      rw [handleSample_eq hentry, if_neg hne, hleave, hnull, error_bind]
  | ok s₂ =>
      right
      have hsome : leaveRing (logged s addr x) old = some s₂ :=
        some_of_ok (toOption_leaveRing _ _) hleave
      refine h.fault_of_overruns hover hentry hleave ?_
      rw [h.leave_tails hW hentry hne (hover.full.trans h.shaped.window) hsome]
      have htop := hover.top
      rw [h.shaped.window] at htop
      exact htop.resolve_left (by omega)

theorem fault_of_overruns_valid (h : CountsAll W s) (hvalid : ValidState s) (hover : Overruns s x)
    (addr : Nat) : (handleSample s addr (some x) : Except Fault State) = .error (.tails (W + 1)) := by
  rcases h.shaped.entry with ⟨old, hentry⟩
  obtain ⟨s₂, hs₂, hnone⟩ : ∃ s₂, leaveRing (logged s addr x) old = some s₂ ∧
      s₂.tails[W]? = some none := h.leave_valid hvalid hentry
  cases hleave : (leaveRing (logged s addr x) old : Except Fault State) with
  | error g =>
      rw [← toOption_leaveRing, hleave] at hs₂
      cases hs₂
  | ok s₂' =>
      have hsome : leaveRing (logged s addr x) old = some s₂' :=
        some_of_ok (toOption_leaveRing _ _) hleave
      obtain rfl : s₂ = s₂' := Option.some.inj (hs₂.symm.trans hsome)
      exact h.fault_of_overruns hover hentry hleave hnone

theorem init (hW : 1 ≤ W) (C chunkSize : Nat) : CountsAll W (windowInit C chunkSize W) where
  shaped := Shaped.init hW C chunkSize
  sampled := (Agrees.init C chunkSize W).sampled
  counted := by
    intro n
    simp [windowInit, List.count_replicate]

theorem alloc (h : CountsAll W s) {s' : State} {p : RegionPtr} {region : ShamblesRegion}
    (heffect : AllocEffect W s s' p region) (hfresh : s.regions.lookup p = none) :
    CountsAll W s' := by
  have hagrees := h.agrees.alloc heffect hfresh
  refine ⟨heffect.shaped, hagrees.sampled, ?_⟩
  intro n
  by_cases hnew : n.region = p ∧ n.index < region.nChunks
  · refine hagrees.counted n ?_
    rw [heffect.regions, liveNode_cons]
    exact Or.inl hnew
  · rw [heffect.samples, heffect.count, if_neg hnew]
    exact h.counted n

theorem sample (h : CountsAll W s) {s' : State} (heffect : SampleEffect W s s' x)
    (hx : LiveNode s.regions x) : CountsAll W s' :=
  ⟨heffect.shaped, (h.agrees.sample heffect hx).sampled,
    fun n => heffect.counted n (h.counted n)⟩

end CountsAll

/-! ## Runs -/

/-- ALLOC events and samples. -/
def NoRelease (_ : State) : Event → Prop
  | .free _ => False
  | _ => True

instance (s : State) : (e : Event) → Decidable (NoRelease s e)
  | .alloc _ _ => isTrue trivial
  | .free _ => isFalse id
  | .sample _ _ => isTrue trivial

instance (s : State) (e : Event) : Decidable ((system.restrict NoRelease).enabled s e) :=
  inferInstanceAs (Decidable (Enabled s.regions e ∧ NoRelease s e))

theorem CountsAll.run {C chunkSize W : Nat} (hW : 1 ≤ W) {es : List Event} {s : State}
    (hrun : Run (system.restrict NoRelease) (windowInit C chunkSize W) es s) : CountsAll W s := by
  refine Run.invariant_state (CountsAll.init hW C chunkSize) ?_ hrun
  intro s e s' h hen hstep
  cases e with
  | alloc p region => exact h.alloc (allocRegion_effect h.shaped hstep) hen.1.1
  | free p => exact absurd hen.2 id
  | sample addr chunk =>
      cases chunk with
      | none =>
          obtain rfl := Option.some.inj hstep
          exact ⟨h.shaped.quiet (Quiet.emit s _), h.sampled, h.counted⟩
      | some x => exact h.sample (handleSample_effect h.shaped hstep) hen.1

/-- In every state that ALLOC events and samples lead to, a sample makes no access out of bounds and
does not reach the crash branch unless it overruns, and then it reads `tails[windowSize + 1]`.  It
does so in every overrun from a valid state; in any state, with a window of at least two, an overrun
can stop before it only on a NULL pointer. -/
theorem array_bounds_iff {C chunkSize W : Nat} (hW : 1 ≤ W) {es : List Event} {s : State}
    (hrun : Run (system.restrict NoRelease) (windowInit C chunkSize W) es s) (addr : Nat)
    (chunk : Option NodePtr) :
    (handleSample s addr chunk : Except Fault State).toOption = handleSample s addr chunk ∧
      (∀ f, f ≠ .null → (handleSample s addr chunk : Except Fault State) = .error f →
        f = .tails (W + 1) ∧ ∃ x, chunk = some x ∧ Overruns s x) ∧
      ∀ x, chunk = some x → Overruns s x →
        (ValidState s → (handleSample s addr chunk : Except Fault State) = .error (.tails (W + 1))) ∧
        (2 ≤ W → (handleSample s addr chunk : Except Fault State) = .error .null ∨
          (handleSample s addr chunk : Except Fault State) = .error (.tails (W + 1))) := by
  have hcounts := CountsAll.run hW hrun
  refine ⟨toOption_handleSample s addr chunk, ?_, ?_⟩
  · intro f hf herror
    cases chunk with
    | none => cases herror
    | some x =>
        rcases hcounts.overruns_of_fault hW hf herror with ⟨hindex, hover⟩
        exact ⟨hindex, x, rfl, hover⟩
  · rintro x rfl hover
    exact ⟨fun hvalid => hcounts.fault_of_overruns_valid hvalid hover addr,
      fun hlarge => hcounts.fault_or_null_of_overruns hlarge hover addr⟩

/-- One chunk, sampled once in a window of two: the next sample of another chunk is in bounds. -/
theorem array_bounds_two_chunks :
    ∃ s, Run (system.restrict NoRelease) (windowInit 1 0x10000 2)
        [.alloc 7 ⟨0x18000, [⟨0x18000, 0x10000⟩, ⟨0x28000, 0x10000⟩], 0x800⟩,
          .sample 0x18000 (some ⟨7, 0⟩)] s ∧
      ∀ f, f ≠ .null → (handleSample s 0x28000 (some ⟨7, 1⟩) : Except Fault State) ≠ .error f := by
  rcases Run.of_exec (system.restrict NoRelease) (windowInit 1 0x10000 2)
    [.alloc 7 ⟨0x18000, [⟨0x18000, 0x10000⟩, ⟨0x28000, 0x10000⟩], 0x800⟩,
      .sample 0x18000 (some ⟨7, 0⟩)] (by decide) with ⟨s, hs, hrun⟩
  refine ⟨s, hrun, ?_⟩
  intro f hf herror
  rcases (array_bounds_iff (by decide) hrun 0x28000 (some ⟨7, 1⟩)).2.1 f hf herror with
    ⟨_, x, hx, hover⟩
  obtain rfl := Option.some.inj hx
  have hfull := hover.full
  obtain rfl := Option.some.inj hs
  revert hfull
  decide

/-- Two samples of one fast chunk in a window of two: the second one reads `tails[3]`, behind the
end of the array. -/
theorem tails_read_behind_end :
    ∃ s, Run (system.restrict NoRelease) (windowInit 1 0x10000 2)
        [.alloc 7 ⟨0x18000, [⟨0x18000, 0x10000⟩], 0x800⟩, .sample 0x18000 (some ⟨7, 0⟩)] s ∧
      s.tails.length = 3 ∧
      (handleSample s 0x18000 (some ⟨7, 0⟩) : Except Fault State) = .error (.tails 3) := by
  rcases Run.of_exec (system.restrict NoRelease) (windowInit 1 0x10000 2)
    [.alloc 7 ⟨0x18000, [⟨0x18000, 0x10000⟩], 0x800⟩, .sample 0x18000 (some ⟨7, 0⟩)] (by decide)
    with ⟨s, hs, hrun⟩
  obtain rfl := Option.some.inj hs
  exact ⟨_, hrun, by decide, rfl⟩

end Window
end Shambles
