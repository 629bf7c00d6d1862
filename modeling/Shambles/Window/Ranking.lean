import Shambles.Lib.RankedList
import Shambles.Window.Model

/-!
# Ranking — what the lists of the window plugin represent

Read one behind the other, the fast and the slow list are a single list ranked by count, and
`tails` is its index (`Valid`).  A sample moves one node down by one rank and one node up by one
rank.  Both moves are the same change of the ranked list, `place`; the many branches of
`handleSample` differ in how they reach it.

`Arranged` is the state right before a move is finished, when the node stands in its new place and
`tails` has forgotten it; `Arranged.finish` covers the two writes that remain.
-/

namespace Shambles
namespace Window

open CircularList RankedList Structures Plugins

/-! ## Valid states -/

/-- The lists and `tails` fit together. -/
structure Listed (s : State) (F S : List NodePtr) : Prop where
  lists : TwoLists s.links s.fastList s.slowList F S
  loc_fast : ∀ n ∈ F, s.loc n = .fast
  loc_slow : ∀ n ∈ S, s.loc n = .slow
  ranked : Ranked s.count (F ++ S)
  bounded : ∀ n ∈ F ++ S, s.count n ≤ s.windowSize
  tails : s.tails = index s.count (s.windowSize + 1) (F ++ S)

theorem Listed.tails_get {s : State} {F S : List NodePtr} (h : Listed s F S) {k : Nat}
    (hk : k ≤ s.windowSize) : s.tails[k]? = some (lastOf s.count k (F ++ S)) := by
  rw [h.tails]
  exact getElem?_index (by omega)

theorem Listed.emit {s : State} {F S : List NodePtr} (h : Listed s F S) (es : List Effect) :
    Listed (s.emit es) F S :=
  ⟨h.lists, h.loc_fast, h.loc_slow, h.ranked, h.bounded, h.tails⟩

/-- A chunk is slow only where there are fast ones. -/
structure Valid (s : State) (F S : List NodePtr) : Prop extends Listed s F S where
  fast_ne_nil : S ≠ [] → F ≠ []

theorem Valid.emit {s : State} {F S : List NodePtr} (h : Valid s F S) (es : List Effect) :
    Valid (s.emit es) F S :=
  ⟨h.toListed.emit es, h.fast_ne_nil⟩

/-- The ring of samples is no part of it. -/
theorem Valid.withRing {s : State} {F S : List NodePtr} (h : Valid s F S)
    (samples : List (Option NodePtr)) (currentLoc : Nat) :
    Valid { s with samples := samples, currentLoc := currentLoc } F S :=
  ⟨⟨h.lists, h.loc_fast, h.loc_slow, h.ranked, h.bounded, h.tails⟩, h.fast_ne_nil⟩

/-- Everything a move leaves alone, besides the counts. -/
structure SameRest (s s' : State) : Prop where
  freeFastChunks : s'.freeFastChunks = s.freeFastChunks
  chunk : s'.chunk = s.chunk
  samples : s'.samples = s.samples
  windowSize : s'.windowSize = s.windowSize
  currentLoc : s'.currentLoc = s.currentLoc
  regions : s'.regions = s.regions

/-- `node` has gone to rank `k`: every other node keeps its count and its place in the order, and
as many nodes as before are fast. -/
structure Repositioned (s s' : State) (F S F' S' : List NodePtr) (node : NodePtr) (k : Nat) :
    Prop where
  valid : Valid s' F' S'
  order : F' ++ S' = place s.count k node ((F ++ S).erase node)
  length : F'.length = F.length
  count : s'.count = Function.update s.count node k
  rest : SameRest s s'

/-- The lists are ready for the new rank `k` of `node`; its count and its entry in `tails` are
still to be written. -/
structure Arranged (s s' : State) (F S F' S' : List NodePtr) (node : NodePtr) (k : Nat) :
    Prop where
  lists : TwoLists s'.links s'.fastList s'.slowList F' S'
  loc_fast : ∀ n ∈ F', s'.loc n = .fast
  loc_slow : ∀ n ∈ S', s'.loc n = .slow
  order : F' ++ S' = place s.count k node ((F ++ S).erase node)
  length : F'.length = F.length
  tails : s'.tails = index s.count (s.windowSize + 1) ((F ++ S).erase node)
  count : s'.count = s.count
  rest : SameRest s s'

theorem Repositioned.perm {s s' : State} {F S F' S' : List NodePtr} {node : NodePtr} {k : Nat}
    (h : Repositioned s s' F S F' S' node k) (hranked : Ranked s.count (F ++ S))
    (hnode : node ∈ F ++ S) : (F' ++ S').Perm (F ++ S) := by
  rw [h.order]
  exact (perm_place (hranked.sublist List.erase_sublist) k node).trans
    (List.perm_cons_erase hnode).symm

theorem setTail_eq {s : State} {k : Nat} (hk : k < s.tails.length) (v : Option NodePtr) :
    s.setTail k v = some { s with tails := s.tails.set k v } := by
  simp [State.setTail, hk]

theorem Arranged.finish {s s₁ : State} {F S F' S' : List NodePtr} {node : NodePtr} {k : Nat}
    (h : Arranged s s₁ F S F' S' node k) (hvalid : Valid s F S) (hnode : node ∈ F ++ S)
    (hk : k ≤ s.windowSize) :
    ∃ s₂, s₁.setTail k (some node) = some s₂ ∧
      Repositioned s (s₂.setCount node k) F S F' S' node k := by
  have hnd : (F ++ S).Nodup := hvalid.lists.nodup
  have hout : node ∉ (F ++ S).erase node := fun hmem => (hnd.mem_erase_iff.1 hmem).1 rfl
  have hranked : Ranked s.count ((F ++ S).erase node) :=
    hvalid.ranked.sublist List.erase_sublist
  have hperm : (F' ++ S').Perm (F ++ S) := by
    rw [h.order]
    exact (perm_place hranked k node).trans (List.perm_cons_erase hnode).symm
  have hlen : k < s₁.tails.length := by
    rw [h.tails, length_index]
    omega
  refine ⟨_, setTail_eq hlen _, ?_, h.order, h.length, ?_, ?_⟩
  · refine ⟨⟨h.lists, h.loc_fast, h.loc_slow, ?_, ?_, ?_⟩, ?_⟩
    · change Ranked (Function.update s₁.count node k) (F' ++ S')
      rw [h.count, h.order]
      exact hranked.place hout
    · intro n hn
      change Function.update s₁.count node k n ≤ s₁.windowSize
      rw [h.count, h.rest.windowSize]
      by_cases hnn : n = node
      · rw [hnn, Function.update_self]
        exact hk
      · rw [Function.update_of_ne hnn]
        exact hvalid.bounded n (hperm.subset hn)
    · change s₁.tails.set k (some node) =
        index (Function.update s₁.count node k) (s₁.windowSize + 1) (F' ++ S')
      rw [h.tails, h.count, h.order, h.rest.windowSize]
      exact index_place hranked hout (by omega)
    · -- The lengths of both lists are what they were.
      intro hS'
      have hF : F ≠ [] := by
        refine hvalid.fast_ne_nil ?_
        intro hS
        have hcount := hperm.length_eq
        simp only [hS, List.append_nil, List.length_append, h.length] at hcount
        exact hS' (List.length_eq_zero_iff.1 (by omega))
      have hpos := List.length_pos_iff.2 hF
      rw [← h.length] at hpos
      exact List.length_pos_iff.1 hpos
  · exact congrArg (fun f => Function.update f node k) h.count
  · exact ⟨h.rest.freeFastChunks, h.rest.chunk, h.rest.samples, h.rest.windowSize,
      h.rest.currentLoc, h.rest.regions⟩

/-! ## Reading `tails` -/

section Tails

variable {s : State} {A B R : List NodePtr} {node : NodePtr} {m : Nat}

/-- Whether or not `node` was the last of its class, `tails` then is the index without it. -/
theorem replaceTail_eq (htails : s.tails = index s.count m (A ++ node :: B))
    (hm : s.count node < m) (hnd : (A ++ node :: B).Nodup) {v : Option (Option NodePtr)}
    (hv : (∀ b ∈ B, s.count b ≠ s.count node) →
      v = some (lastOf s.count (s.count node) (A ++ B))) :
    replaceTail s node v = some { s with tails := index s.count m (A ++ B) } := by
  have hlen : s.count node < s.tails.length := by
    rw [htails, length_index]
    exact hm
  have hown : s.tails[s.count node]? = some (lastOf s.count (s.count node) (A ++ node :: B)) := by
    rw [htails]
    exact getElem?_index hm
  have hindex := index_remove s.count m A B node
  rw [← htails] at hindex
  by_cases hlast : lastOf s.count (s.count node) (A ++ node :: B) = some node
  · rw [replaceTail, State.getTail_option, hown, Option.bind_eq_bind, Option.bind_some, if_pos hlast,
      hv ((lastOf_middle hnd).1 hlast), Option.bind_some, setTail_eq hlen, hindex]
  · -- The entry keeps its value, which is the one without `node` as well.
    have hkeep : s.tails.set (s.count node) (lastOf s.count (s.count node) (A ++ B)) = s.tails := by
      refine List.ext_getElem? ?_
      intro j
      by_cases hj : s.count node = j
      · subst hj
        rw [List.getElem?_set_self hlen, hown, lastOf_remove (Or.inl hlast)]
      · rw [List.getElem?_set_ne hj]
    rw [replaceTail, State.getTail_option, hown, Option.bind_eq_bind, Option.bind_some,
      if_neg hlast, ← hindex, hkeep]
    rfl

/-- The search ends at the anchor of the rank it starts from. -/
theorem searchTail_eq {rank : NodePtr → Nat} (hR : Ranked rank R) :
    ∀ steps i, i + steps < m → (∀ n ∈ R, rank n ≤ i + steps) →
      searchTail (index rank m R) steps i = some (anchor rank i R) := by
  intro steps
  induction steps with
  | zero =>
      intro i hi hmax
      have hnone : anchor rank (i + 1) R = none := by
        refine anchor_eq_none_iff.2 ?_
        intro n hn
        have := hmax n hn
        omega
      rw [searchTail, orFault_option, getElem?_index (by omega), hR.anchor_eq i, hnone,
        Option.or_none]
  | succ steps ih =>
      intro i hi hmax
      rw [searchTail, orFault_option, getElem?_index (by omega), hR.anchor_eq i]
      cases hlast : lastOf rank i R with
      | none =>
          rw [Option.none_or]
          refine ih (i + 1) (by omega) ?_
          intro n hn
          have := hmax n hn
          omega
      | some t => rfl

end Tails

/-! ## Reading the predecessor -/

section Predecessor

variable {s : State} {A B : List NodePtr} {node : NodePtr}

/-- For the last node of a class the predecessor decides who becomes the last one.  In a list with
one element the node would find itself. -/
theorem prevInClass_eq (hprev : some (s.links.prev node) = A.getLast?.or (node :: B).getLast?)
    (hB : ∀ b ∈ B, s.count b ≠ s.count node) (hne : A ≠ [] ∨ B ≠ []) :
    prevInClass s node = A.getLast?.filter (fun a => s.count a = s.count node) := by
  rcases List.eq_nil_or_concat' A with rfl | ⟨A', p, rfl⟩
  · rcases List.eq_nil_or_concat' B with rfl | ⟨B', b, rfl⟩
    · simp at hne
    · have hend : (node :: (B' ++ [b])).getLast? = some b := by
        rw [← List.cons_append, List.getLast?_concat]
      have hlast : s.links.prev node = b := by simpa [hend] using hprev
      have hb : s.count b ≠ s.count node := hB b (by simp)
      simp [prevInClass, hlast, hb]
  · have hlast : s.links.prev node = p := by simpa using hprev
    by_cases hp : s.count p = s.count node
    · simp [prevInClass, hlast, hp, Option.filter]
    · simp [prevInClass, hlast, hp, Option.filter]

theorem otherPrevInClass_eq (hcirc : Circular s.links (A ++ node :: B))
    (hB : ∀ b ∈ B, s.count b ≠ s.count node) :
    otherPrevInClass s node = A.getLast?.filter (fun a => s.count a = s.count node) := by
  have hrot : Circular s.links (node :: (B ++ A)) := by simpa using hcirc.rotate
  by_cases hself : s.links.prev node = node
  · have hnil := hrot.prev_eq_self_iff.1 hself
    have hA : A = [] := (List.append_eq_nil_iff.1 hnil).2
    simp [otherPrevInClass, hself, hA]
  · have hne : A ≠ [] ∨ B ≠ [] := by
      by_contra hboth
      simp only [not_or, not_not] at hboth
      exact hself (hrot.prev_eq_self_iff.2 (by simp [hboth.1, hboth.2]))
    rw [otherPrevInClass, if_neg hself]
    exact prevInClass_eq hcirc.prev_middle hB hne

end Predecessor

/-! ## Rearranging the lists

What the branches without migration do: nodes change places inside their lists.
-/

structure Reordered (s s' : State) (F S F' S' : List NodePtr) : Prop where
  lists : TwoLists s'.links s'.fastList s'.slowList F' S'
  fast : F'.Perm F
  slow : S'.Perm S
  frame : s' = { s with links := s'.links, fastList := s'.fastList, slowList := s'.slowList }

/-- Where a split of the whole list falls. -/
theorem append_eq_split {X Y U V : List NodePtr} {t : NodePtr} (h : X ++ Y = U ++ t :: V) :
    (∃ V₁, X = U ++ t :: V₁ ∧ V = V₁ ++ Y) ∨ ∃ U₁, U = X ++ U₁ ∧ Y = U₁ ++ t :: V := by
  rcases List.append_eq_append_iff.1 h with ⟨U₁, hU, hY⟩ | ⟨T, hX, hT⟩
  · exact Or.inr ⟨U₁, hU, hY⟩
  · cases T with
    | nil => exact Or.inr ⟨[], by simpa using hX.symm, by simpa using hT.symm⟩
    | cons t' V₁ =>
        rcases List.cons_eq_cons.1 hT with ⟨rfl, hV⟩
        exact Or.inl ⟨V₁, hX, hV⟩

section Reorder

variable {s : State} {F S A B U V : List NodePtr} {node t : NodePtr}

theorem relink_fast (h : TwoLists s.links s.fastList s.slowList (A ++ node :: B) S)
    (hne : node ≠ t) : relink s node t = (s.dqFast node).insert node t := by
  have hslow : s.slowList ≠ some node := h.right.head_ne (h.disjoint (by simp))
  rw [relink, if_neg hslow]
  by_cases hfast : s.fastList = some node
  · rw [if_pos hfast]
  · rw [if_neg hfast]
    simp only [State.move, State.insert, State.dqFast, move_eq hfast hne, dq_snd_of_ne hfast]

theorem relink_slow (h : TwoLists s.links s.fastList s.slowList F (A ++ node :: B))
    (hne : node ≠ t) : relink s node t = (s.dqSlow node).insert node t := by
  have hfast : s.fastList ≠ some node :=
    h.left.head_ne (fun hmem => h.disjoint hmem (by simp))
  by_cases hslow : s.slowList = some node
  · rw [relink, if_pos hslow]
  · rw [relink, if_neg hslow, if_neg hfast]
    simp only [State.move, State.insert, State.dqSlow, move_eq hslow hne, dq_snd_of_ne hslow]

namespace Reordered

theorem behind_fast (h : TwoLists s.links s.fastList s.slowList (A ++ node :: B) S)
    (hsplit : A ++ B = U ++ t :: V) :
    Reordered s ((s.dqFast node).insert node t) (A ++ node :: B) S (U ++ t :: node :: V) S := by
  refine ⟨h.relink_left hsplit, ?_, List.Perm.refl S, rfl⟩
  rw [List.append_cons]
  refine List.perm_middle.trans (List.Perm.trans ?_ List.perm_middle.symm)
  rw [hsplit, ← List.append_cons]

theorem behind_slow (h : TwoLists s.links s.fastList s.slowList F (A ++ node :: B))
    (hsplit : A ++ B = U ++ t :: V) :
    Reordered s ((s.dqSlow node).insert node t) F (A ++ node :: B) F (U ++ t :: node :: V) := by
  refine ⟨(h.symm.relink_left hsplit).symm, List.Perm.refl F, ?_, rfl⟩
  rw [List.append_cons]
  refine List.perm_middle.trans (List.Perm.trans ?_ List.perm_middle.symm)
  rw [hsplit, ← List.append_cons]

theorem front_fast (h : TwoLists s.links s.fastList s.slowList (A ++ node :: B) S) :
    Reordered s ((s.dqFast node).pushFast node) (A ++ node :: B) S (node :: (A ++ B)) S :=
  ⟨h.front_left, List.perm_middle.symm, List.Perm.refl S, rfl⟩

theorem front_slow (h : TwoLists s.links s.fastList s.slowList F (A ++ node :: B)) :
    Reordered s ((s.dqSlow node).pushSlow node) F (A ++ node :: B) F (node :: (A ++ B)) :=
  ⟨h.symm.front_left.symm, List.Perm.refl F, List.perm_middle.symm, rfl⟩

end Reordered

/-- `relink` puts the node behind a node of its own list. -/
theorem relink_reordered (h : TwoLists s.links s.fastList s.slowList F S)
    (hnode : node ∈ F ++ S) (hsplit : (F ++ S).erase node = U ++ t :: V)
    (hside : t ∈ F ↔ node ∈ F) :
    ∃ F' S', Reordered s (relink s node t) F S F' S' ∧ F' ++ S' = U ++ t :: node :: V := by
  have hne : node ≠ t := by
    rintro rfl
    have hmem : node ∈ (F ++ S).erase node := by simp [hsplit]
    exact (h.nodup.mem_erase_iff.1 hmem).1 rfl
  by_cases hF : node ∈ F
  · rcases List.append_of_mem hF with ⟨A, B, rfl⟩
    rw [List.erase_append_left _ hF, erase_middle h.left.circular.nodup] at hsplit
    rcases append_eq_split hsplit with ⟨V₁, hAB, hV⟩ | ⟨U₁, _, hS⟩
    · refine ⟨_, _, relink_fast h hne ▸ Reordered.behind_fast h hAB, ?_⟩
      simp [hV]
    · exact (h.disjoint (hside.2 hF) (by simp [hS])).elim
  · have hS : node ∈ S := by simpa [hF] using hnode
    rcases List.append_of_mem hS with ⟨A, B, rfl⟩
    rw [List.erase_append_right _ hF, erase_middle h.right.circular.nodup] at hsplit
    rcases append_eq_split hsplit with ⟨V₁, hFt, _⟩ | ⟨U₁, hU, hAB⟩
    · exact absurd (hside.1 (by simp [hFt])) hF
    · refine ⟨_, _, relink_slow h hne ▸ Reordered.behind_slow h hAB, ?_⟩
      simp [hU]

end Reorder

namespace Valid

variable {s : State} {F S A B : List NodePtr} {node : NodePtr}

theorem erase_eq (h : Valid s F S) (hsplit : F ++ S = A ++ node :: B) :
    (F ++ S).erase node = A ++ B := by
  have hnd := h.lists.nodup
  rw [hsplit] at hnd ⊢
  exact erase_middle hnd

/-- A reordering that puts `node` in its new place, after `tails` has forgotten it. -/
theorem arranged (h : Valid s F S) {s₁ : State} {F' S' : List NodePtr} {k : Nat}
    (hmove : Reordered { s with tails := index s.count (s.windowSize + 1) ((F ++ S).erase node) }
      s₁ F S F' S')
    (horder : F' ++ S' = place s.count k node ((F ++ S).erase node)) :
    Arranged s s₁ F S F' S' node k := by
  have hframe := hmove.frame
  refine ⟨hmove.lists, ?_, ?_, horder, hmove.fast.length_eq, ?_, ?_, ?_⟩
  · intro n hn
    rw [hframe]
    exact h.loc_fast n (hmove.fast.subset hn)
  · intro n hn
    rw [hframe]
    exact h.loc_slow n (hmove.slow.subset hn)
  · rw [hframe]
  · rw [hframe]
  · rw [hframe]
    exact ⟨rfl, rfl, rfl, rfl, rfl, rfl⟩

theorem countP_fast (h : Valid s F S) : (F ++ S).countP (fun n => s.loc n = .fast) = F.length := by
  have hfast : F.countP (fun n => s.loc n = .fast) = F.length := by
    refine List.countP_eq_length.2 ?_
    intro n hn
    simp [h.loc_fast n hn]
  have hslow : S.countP (fun n => s.loc n = .fast) = 0 := by
    refine List.countP_eq_zero.2 ?_
    intro n hn
    simp [h.loc_slow n hn]
  rw [List.countP_append, hfast, hslow, Nat.add_zero]

theorem countP_slow (h : Valid s F S) : (F ++ S).countP (fun n => s.loc n = .slow) = S.length := by
  have hfast : F.countP (fun n => s.loc n = .slow) = 0 := by
    refine List.countP_eq_zero.2 ?_
    intro n hn
    simp [h.loc_fast n hn]
  have hslow : S.countP (fun n => s.loc n = .slow) = S.length := by
    refine List.countP_eq_length.2 ?_
    intro n hn
    simp [h.loc_slow n hn]
  rw [List.countP_append, hfast, hslow, Nat.zero_add]

theorem fastTail_eq (h : Valid s F S) : s.fastTail = F.getLast? := by
  cases F with
  | nil =>
      have hhead : s.fastList = none := h.lists.left.head
      simp [State.fastTail, hhead]
  | cons a t =>
      have hhead : s.fastList = some a := h.lists.left.head
      have hprev := Circular.prev_middle (A := []) h.lists.left.circular
      simpa [State.fastTail, hhead] using hprev

/-- Behind its new anchor, which is in the list of `node`. -/
theorem relink_arranged (h : Valid s F S) (hnode : node ∈ F ++ S) {t : NodePtr} {k : Nat}
    (hanchor : anchor s.count k ((F ++ S).erase node) = some t) (hside : t ∈ F ↔ node ∈ F) :
    ∃ F' S', Arranged s
      (relink { s with tails := index s.count (s.windowSize + 1) ((F ++ S).erase node) } node t)
      F S F' S' node k := by
  have hranked : Ranked s.count ((F ++ S).erase node) := h.ranked.sublist List.erase_sublist
  rcases place_of_anchor_some (n := node) hranked hanchor with ⟨U, V, hsplit, hplace, _⟩
  have hlists : TwoLists
      { s with tails := index s.count (s.windowSize + 1) ((F ++ S).erase node) }.links
      s.fastList s.slowList F S := h.lists
  rcases relink_reordered hlists hnode hsplit hside with ⟨F', S', hmove, horder⟩
  exact ⟨F', S', h.arranged hmove (horder.trans hplace.symm)⟩

end Valid

/-! ## Exchanging a node between the lists

What the branches with migration do first: `node` leaves its list, another node takes its place on
that side, and both tags are changed.
-/

/-- `node` is in neither list and tagged for its new one; its fields still show the predecessor it
had between `P` and `Q`. -/
structure Detached (s s₁ : State) (F' S' P Q : List NodePtr) (node : NodePtr) (tier : MemLoc) :
    Prop where
  lists : TwoLists s₁.links s₁.fastList s₁.slowList F' S'
  prev : some (s₁.links.prev node) = P.getLast?.or (node :: Q).getLast?
  loc_fast : ∀ n ∈ F', s₁.loc n = .fast
  loc_slow : ∀ n ∈ S', s₁.loc n = .slow
  loc_node : s₁.loc node = tier
  tails : s₁.tails = s.tails
  count : s₁.count = s.count
  rest : SameRest s s₁

namespace Detached

variable {s s₁ : State} {F S F' S' P Q A B : List NodePtr} {node : NodePtr} {tier : MemLoc}

/-- `tails` forgets the node by way of the fields it was left with. -/
theorem replaceTail_eq (h : Detached s s₁ F' S' P Q node tier) {m : Nat}
    (htails : s.tails = index s.count m (A ++ node :: B)) (hm : s.count node < m)
    (hnd : (A ++ node :: B).Nodup) (hranked : Ranked s.count (A ++ node :: B))
    (hQ : Q ⊆ B) (hne : P ≠ [] ∨ Q ≠ [])
    (hlast : P.getLast?.filter (fun a => s.count a = s.count node) =
      A.getLast?.filter (fun a => s.count a = s.count node)) :
    replaceTail s₁ node (some (prevInClass s₁ node)) =
      some { s₁ with tails := index s.count m (A ++ B) } := by
  rw [← h.tails] at htails
  have hcount := h.count
  rw [← hcount] at htails hm hranked hlast ⊢
  refine Window.replaceTail_eq htails hm hnd ?_
  intro hB
  rw [prevInClass_eq h.prev (fun b hb => hB b (hQ hb)) hne, hlast]
  exact congrArg some (hranked.lastOf_remove_last hB).symm

/-- The last step of an exchange: `node` enters its new list. -/
theorem arranged (h : Detached s s₁ F' S' P Q node tier) {F'' S'' R : List NodePtr} {k : Nat}
    {u : State}     (herase : (F ++ S).erase node = R)
    (hlists : TwoLists u.links u.fastList u.slowList F'' S'')
    (hframe : u = { s₁ with
      tails := index s.count (s.windowSize + 1) R
      links := u.links
      fastList := u.fastList
      slowList := u.slowList })
    (hfast : ∀ n ∈ F'', n ∈ F' ∨ n = node ∧ tier = .fast)
    (hslow : ∀ n ∈ S'', n ∈ S' ∨ n = node ∧ tier = .slow)
    (horder : F'' ++ S'' = place s.count k node R)
    (hlength : F''.length = F.length) : Arranged s u F S F'' S'' node k := by
  subst herase
  refine ⟨hlists, ?_, ?_, horder, hlength, ?_, ?_, ?_⟩
  · intro n hn
    rw [hframe]
    rcases hfast n hn with hF' | ⟨rfl, htier⟩
    · exact h.loc_fast n hF'
    · exact h.loc_node.trans htier
  · intro n hn
    rw [hframe]
    rcases hslow n hn with hS' | ⟨rfl, htier⟩
    · exact h.loc_slow n hS'
    · exact h.loc_node.trans htier
  · rw [hframe]
  · rw [hframe]
    exact h.count
  · rw [hframe]
    exact ⟨h.rest.freeFastChunks, h.rest.chunk, h.rest.samples, h.rest.windowSize,
      h.rest.currentLoc, h.rest.regions⟩

end Detached

end Window
end Shambles
