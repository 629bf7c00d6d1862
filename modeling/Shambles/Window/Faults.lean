import Shambles.Window.Ring

/-!
# Faults — what can go wrong in a sample

Read as `Except Fault`, the functions of `Model` say what goes wrong: a NULL pointer, an index out of
bounds in one of the two arrays, or the deliberate crash on a count of zero.

* `toOption_handleSample`: without the faults this is the function that the runs step with.
* `InBounds`: no fault but a NULL pointer, for every part of a demotion and a promotion.
-/

namespace Shambles
namespace Window

open Plugins Structures

/-! ## The same function -/

section ToOption

variable {α β : Type}

@[simp] theorem ok_bind (a : α) (f : α → Except Fault β) : (Except.ok a >>= f) = f a :=
  rfl

@[simp] theorem error_bind (fault : Fault) (f : α → Except Fault β) :
    (Except.error fault >>= f) = Except.error fault :=
  rfl

/-- A program and its reading without faults run in step. -/
theorem toOption_bind {r : Except Fault α} {o : Option α} {f : α → Except Fault β}
    {g : α → Option β} (hr : r.toOption = o) (hf : ∀ a, (f a).toOption = g a) :
    (r >>= f).toOption = o >>= g := by
  subst hr
  cases r with
  | error fault => rfl
  | ok a => exact hf a

theorem toOption_orFault (f : Fault) (o : Option α) :
    (orFault f o : Except Fault α).toOption = orFault f o := by
  cases o <;> rfl

theorem toOption_setTail (s : State) (k : Nat) (v : Option NodePtr) :
    (s.setTail k v : Except Fault State).toOption = s.setTail k v := by
  unfold State.setTail
  split_ifs <;> rfl

theorem toOption_setSample (s : State) (chunk : NodePtr) :
    (s.setSample chunk : Except Fault State).toOption = s.setSample chunk := by
  unfold State.setSample
  split_ifs <;> rfl

theorem toOption_tailBefore (s : State) (node : NodePtr) :
    (tailBefore s node : Except Fault (Option NodePtr)).toOption = tailBefore s node := by
  unfold tailBefore
  cases otherPrevInClass s node with
  | some p => rfl
  | none =>
      dsimp only
      split_ifs
      · exact toOption_bind (toOption_orFault _ _) (fun _ => rfl)
      · rfl

theorem toOption_replaceTail (s : State) (node : NodePtr) {v : Except Fault (Option NodePtr)}
    {v' : Option (Option NodePtr)} (hv : v.toOption = v') :
    (replaceTail s node v).toOption = replaceTail s node v' := by
  refine toOption_bind (toOption_orFault _ _) ?_
  intro own
  split_ifs
  · exact toOption_bind hv (toOption_setTail s _)
  · rfl

theorem toOption_searchTail (tails : List (Option NodePtr)) (steps : Nat) :
    ∀ i, (searchTail tails steps i : Except Fault (Option NodePtr)).toOption =
      searchTail tails steps i := by
  induction steps with
  | zero => exact fun i => toOption_orFault _ _
  | succ steps ih =>
      intro i
      refine toOption_bind (toOption_orFault _ _) ?_
      intro v
      cases v with
      | none => exact ih (i + 1)
      | some t => rfl

theorem toOption_demoteInPlace (s : State) (node : NodePtr) :
    (demoteInPlace s node : Except Fault State).toOption = demoteInPlace s node := by
  refine toOption_bind (toOption_orFault _ _) ?_
  intro below
  refine toOption_bind (toOption_orFault _ _) ?_
  intro own
  cases below with
  | none =>
      dsimp only
      split_ifs
      · refine toOption_bind (toOption_tailBefore s node) ?_
        intro t
        exact toOption_bind (toOption_setTail s _ t) (fun s₁ => toOption_setTail s₁ _ _)
      · exact toOption_bind (toOption_orFault _ _) (fun t => toOption_setTail _ _ _)
  | some t =>
      refine toOption_bind (toOption_replaceTail s node (toOption_tailBefore s node)) ?_
      exact fun s₁ => toOption_setTail _ _ _

theorem toOption_demoteSwap (s : State) (node head : NodePtr) :
    (demoteSwap s node head : Except Fault State).toOption = demoteSwap s node head := by
  refine toOption_bind (toOption_replaceTail _ node rfl) ?_
  intro s₂
  refine toOption_bind (toOption_orFault _ _) ?_
  intro below
  cases below with
  | none =>
      refine toOption_bind (toOption_orFault _ _) ?_
      intro own
      exact toOption_bind (toOption_orFault _ _) (fun t => toOption_setTail _ _ _)
  | some t => exact toOption_setTail _ _ _

theorem toOption_demote (s : State) (node : NodePtr) :
    (demote s node : Except Fault State).toOption = demote s node := by
  unfold demote
  dsimp only
  split_ifs with hzero
  · rfl
  · cases s.loc node with
    | slow => exact toOption_bind (toOption_demoteInPlace s node) (fun _ => rfl)
    | fast =>
        cases s.slowList with
        | none => exact toOption_bind (toOption_demoteInPlace s node) (fun _ => rfl)
        | some head =>
            dsimp only
            split_ifs
            · exact toOption_bind (toOption_demoteInPlace s node) (fun _ => rfl)
            · exact toOption_bind (toOption_demoteSwap s node head) (fun _ => rfl)

theorem toOption_promoteInPlace (s : State) (node : NodePtr) :
    (promoteInPlace s node : Except Fault State).toOption = promoteInPlace s node := by
  refine toOption_bind (toOption_orFault _ _) ?_
  intro next
  cases next with
  | none =>
      refine toOption_bind (toOption_replaceTail s node rfl) ?_
      intro s₁
      refine toOption_bind (toOption_searchTail _ _ _) ?_
      intro found
      cases found with
      | none => exact toOption_setTail _ _ _
      | some t => exact toOption_setTail _ _ _
  | some t =>
      refine toOption_bind (toOption_replaceTail s node rfl) ?_
      exact fun s₁ => toOption_setTail _ _ _

theorem toOption_promoteSwap (s : State) (node tail : NodePtr) :
    (promoteSwap s node tail : Except Fault State).toOption = promoteSwap s node tail := by
  refine toOption_bind (toOption_replaceTail _ node rfl) ?_
  intro s₂
  refine toOption_bind (toOption_searchTail _ _ _) ?_
  exact fun found => toOption_setTail _ _ _

theorem toOption_promote (s : State) (node : NodePtr) :
    (promote s node : Except Fault State).toOption = promote s node := by
  unfold promote
  cases s.loc node with
  | fast => exact toOption_bind (toOption_promoteInPlace s node) (fun _ => rfl)
  | slow =>
      refine toOption_bind (toOption_orFault _ _) ?_
      intro tail
      dsimp only
      split_ifs
      · exact toOption_bind (toOption_promoteInPlace s node) (fun _ => rfl)
      · exact toOption_bind (toOption_promoteSwap s node tail) (fun _ => rfl)

theorem toOption_leaveRing (s : State) (old : Option NodePtr) :
    (leaveRing s old : Except Fault State).toOption = leaveRing s old := by
  cases old with
  | none => rfl
  | some node => exact toOption_demote s node

/-- Without its faults a sample is the step of the model. -/
theorem toOption_handleSample (s : State) (addr : Nat) (chunk : Option NodePtr) :
    (handleSample s addr chunk : Except Fault State).toOption = handleSample s addr chunk := by
  cases chunk with
  | none => rfl
  | some node =>
      refine toOption_bind (toOption_orFault _ _) ?_
      intro old
      split_ifs
      · rfl
      · refine toOption_bind (toOption_leaveRing _ old) ?_
        intro s₂
        refine toOption_bind (toOption_setSample s₂ node) ?_
        intro s₃
        exact toOption_bind (toOption_promote s₃ node) (fun _ => rfl)

theorem some_of_ok {r : Except Fault α} {o : Option α} {a : α} (h : r.toOption = o)
    (hr : r = .ok a) : o = some a := by
  rw [← h, hr]
  rfl

end ToOption

/-! ## In bounds -/

/-- The only fault is a NULL pointer. -/
def InBounds {α : Type} (r : Except Fault α) : Prop :=
  ∀ f, r = .error f → f = .null

namespace InBounds

variable {α β : Type}

theorem ok (a : α) : InBounds (pure a) := by
  intro f hf
  cases hf

theorem bind {r : Except Fault α} {f : α → Except Fault β} (hr : InBounds r)
    (hf : ∀ a, r = .ok a → InBounds (f a)) : InBounds (r >>= f) := by
  cases r with
  | error fault =>
      intro g hg
      cases hg
      exact hr fault rfl
  | ok a => exact hf a rfl

theorem deref (o : Option α) : InBounds (orFault .null o) := by
  cases o with
  | none =>
      intro f hf
      cases hf
      rfl
  | some a => exact ok a

variable {s : State} {node : NodePtr}

theorem getTail {tails : List (Option NodePtr)} {i : Nat} (hi : i < tails.length) :
    InBounds (orFault (.tails i) tails[i]?) := by
  rw [List.getElem?_eq_getElem hi]
  exact ok _

theorem setTail {k : Nat} (hk : k < s.tails.length) (v : Option NodePtr) :
    InBounds (s.setTail k v) := by
  rw [State.setTail, if_pos hk]
  exact ok _

theorem tailBefore (s : State) (node : NodePtr) : InBounds (tailBefore s node) := by
  unfold Window.tailBefore
  cases otherPrevInClass s node with
  | some p => exact ok _
  | none =>
      dsimp only
      split_ifs
      · exact bind (deref _) (fun t _ => ok _)
      · exact ok _

theorem replaceTail {v : Except Fault (Option NodePtr)} (hnode : s.count node < s.tails.length)
    (hv : InBounds v) : InBounds (replaceTail s node v) := by
  refine bind (getTail hnode) ?_
  intro own _
  split_ifs
  · exact bind hv (fun t _ => setTail hnode t)
  · exact ok s

/-- The loop looks at the entries `i` to `i + steps`. -/
theorem searchTail {tails : List (Option NodePtr)} (steps : Nat) :
    ∀ {i : Nat}, i + steps < tails.length → InBounds (searchTail tails steps i) := by
  induction steps with
  | zero =>
      intro i hi
      exact getTail hi
  | succ steps ih =>
      intro i hi
      refine bind (getTail (by omega)) ?_
      intro v _
      cases v with
      | none => exact ih (by omega)
      | some t => exact ok _

/-! ### Demotion -/

theorem demoteInPlace (hnode : s.count node < s.tails.length) :
    InBounds (demoteInPlace s node) := by
  have hbelow : s.count node - 1 < s.tails.length := by omega
  -- whatever happens to the lists, `tails` keeps its length up to the last write
  have hlast : ∀ {s₁ : State}, Untouched s s₁ →
      InBounds (s₁.setTail (s.count node - 1) (some node)) := by
    intro s₁ hsame
    refine setTail ?_ _
    rw [hsame.tails_length]
    exact hbelow
  refine bind (getTail hbelow) ?_
  intro below _
  refine bind (getTail hnode) ?_
  intro own _
  cases below with
  | none =>
      dsimp only
      split_ifs
      · refine bind (tailBefore s node) ?_
        intro t _
        refine bind (setTail hnode t) ?_
        intro s₁ hs₁
        exact hlast (Untouched.setTail (some_of_ok (toOption_setTail s _ t) hs₁))
      · refine bind (deref own) ?_
        intro t _
        exact hlast (Untouched.relink s node t)
  | some t =>
      refine bind (replaceTail hnode (tailBefore s node)) ?_
      intro s₁ hs₁
      have hsame := Untouched.replaceTail (some_of_ok (toOption_replaceTail s node rfl) hs₁)
      exact hlast (hsame.trans (Untouched.relink s₁ node t))

theorem demoteSwap (hnode : s.count node < s.tails.length) (head : NodePtr) :
    InBounds (demoteSwap s node head) := by
  have hexchange : s.count node < (demoteExchange s node head).tails.length := hnode
  refine bind (replaceTail hexchange (ok _)) ?_
  intro s₂ hs₂
  -- From here on only the length of `tails` matters, which no operation changes.
  have hsame₂ : Untouched (demoteExchange s node head) s₂ :=
    Untouched.replaceTail (some_of_ok (toOption_replaceTail _ node rfl) hs₂)
  have hlength : s₂.tails.length = s.tails.length := hsame₂.tails_length
  have hlast : ∀ t, InBounds
      ((insertSlow s₂ node t).setTail (s.count node - 1) (some node)) := by
    intro t
    refine setTail ?_ _
    rw [(Untouched.insertSlow s₂ node t).tails_length]
    omega
  refine bind (getTail (by omega)) ?_
  intro below _
  cases below with
  | none =>
      refine bind (getTail (by omega)) ?_
      intro own _
      refine bind (deref own) ?_
      intro t _
      exact hlast t
  | some t => exact hlast t

theorem demote (hnode : s.count node < s.tails.length) (hpos : s.count node ≠ 0) :
    InBounds (demote s node) := by
  unfold Window.demote
  dsimp only
  rw [if_neg hpos]
  split
  · split_ifs
    · exact bind (demoteInPlace hnode) (fun s₁ _ => ok _)
    · exact bind (demoteSwap hnode _) (fun s₁ _ => ok _)
  · exact bind (demoteInPlace hnode) (fun s₁ _ => ok _)

/-! ### Promotion -/

theorem promoteSwap {W : Nat} (hshape : Shaped W s) (hnode : s.count node + 1 ≤ W)
    (tail : NodePtr) : InBounds (promoteSwap s node tail) := by
  have hlength := hshape.tails_length
  have hexchange : s.count node < (promoteExchange s node tail).tails.length := by
    show s.count node < s.tails.length
    omega
  refine bind (replaceTail hexchange (ok _)) ?_
  intro s₂ hs₂
  have hsame₂ : Untouched (promoteExchange s node tail) s₂ :=
    Untouched.replaceTail (some_of_ok (toOption_replaceTail _ node rfl) hs₂)
  have hlength₂ : s₂.tails.length = s.tails.length := hsame₂.tails_length
  have hwindow₂ : s₂.windowSize = W := hsame₂.rest.windowSize.trans hshape.window
  -- The search starts at `node->count + 1` and ends at `windowSize`, the last entry.
  refine bind (searchTail _ (by omega)) ?_
  intro found _
  cases found with
  | none =>
      refine setTail ?_ _
      show s.count node + 1 < s₂.tails.length
      omega
  | some t =>
      refine setTail ?_ _
      show s.count node + 1 < s₂.tails.length
      omega

/-- In place the search has to start inside the array, unless it is not needed. -/
theorem promoteInPlace {W : Nat} (hshape : Shaped W s) (hnode : s.count node + 1 ≤ W)
    (hroom : s.count node + 2 ≤ W ∨ s.tails[s.count node + 1]? ≠ some none) :
    InBounds (promoteInPlace s node) := by
  have hlength := hshape.tails_length
  have hlast : ∀ {s₁ : State}, Untouched s s₁ →
      InBounds (s₁.setTail (s.count node + 1) (some node)) := by
    intro s₁ hsame
    refine setTail ?_ _
    rw [hsame.tails_length]
    omega
  have hreplace : ∀ v, InBounds (Window.replaceTail s node (pure v)) := by
    intro v
    exact replaceTail (by omega) (ok v)
  refine bind (getTail (by omega)) ?_
  intro next hnext
  have hread : s.tails[s.count node + 1]? = some next := by
    simpa using some_of_ok (toOption_orFault _ _) hnext
  cases next with
  | none =>
      -- This branch searches from `node->count + 2` on.
      have hstart : s.count node + 2 ≤ W := by
        rcases hroom with hroom | hset
        · exact hroom
        · exact absurd hread hset
      refine bind (hreplace _) ?_
      intro s₁ hs₁
      have hsame := Untouched.replaceTail (some_of_ok (toOption_replaceTail s node rfl) hs₁)
      have hlength₁ : s₁.tails.length = s.tails.length := hsame.tails_length
      have hwindow₁ : s₁.windowSize = W := hsame.rest.windowSize.trans hshape.window
      refine bind (searchTail _ (by omega)) ?_
      intro found _
      cases found with
      | none =>
          have hfront : Untouched s₁ ((s₁.dqFast node).pushFast node) := Untouched.of_lists rfl
          exact hlast (hsame.trans hfront)
      | some t => exact hlast (hsame.trans (Untouched.promoteBehind s₁ node t))
  | some t =>
      refine bind (hreplace _) ?_
      intro s₁ hs₁
      have hsame := Untouched.replaceTail (some_of_ok (toOption_replaceTail s node rfl) hs₁)
      exact hlast (hsame.trans (Untouched.promoteBehind s₁ node t))

end InBounds

end Window
end Shambles
