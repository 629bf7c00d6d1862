import Shambles.Window.Ranking

/-!
# Demote — the first half of a sample

The chunk that leaves the ring loses one from its count.  `demote` keeps the state valid and moves
its node to the end of the class below (`demote_spec`).  Without migration the node stays in its
list; with migration it changes lists with the head of the slow one, whose count is at most one
away.
-/

namespace Shambles
namespace Window

open CircularList RankedList Structures Plugins

section TailBefore

variable {s : State} {F S A B : List NodePtr} {node : NodePtr}

/-- Leaving a class downwards: the predecessor in the whole list takes over if it is in the class,
be it on the other side of the border between the lists. -/
theorem Valid.tailBefore_eq (h : Valid s F S) (hsplit : F ++ S = A ++ node :: B)
    (hB : ∀ b ∈ B, s.count b ≠ s.count node) :
    tailBefore s node = some (lastOf s.count (s.count node) (A ++ B)) := by
  have hranked := h.ranked
  rw [hsplit] at hranked
  rw [hranked.lastOf_remove_last hB]
  rcases append_eq_split hsplit with ⟨B₁, hF, rfl⟩ | ⟨A₁, rfl, hS⟩
  · have hloc : s.loc node = .fast := h.loc_fast node (by simp [hF])
    have hcirc := h.lists.left.circular
    rw [hF] at hcirc
    have hprev := otherPrevInClass_eq hcirc (fun b hb => hB b (by simp [hb]))
    rw [tailBefore, hprev]
    cases A.getLast?.filter (fun a => s.count a = s.count node) with
    | none => simp [hloc]
    | some p => rfl
  · have hloc : s.loc node = .slow := h.loc_slow node (by simp [hS])
    have hcirc := h.lists.right.circular
    rw [hS] at hcirc
    have hprev := otherPrevInClass_eq hcirc hB
    rw [tailBefore, hprev, List.getLast?_append]
    rcases List.eq_nil_or_concat' F with hF | ⟨F', f, hF⟩
    · exact absurd hF (h.fast_ne_nil (by simp [hS]))
    · have hf : s.fastTail = some f := by simp [h.fastTail_eq, hF]
      rcases List.eq_nil_or_concat' A₁ with rfl | ⟨A', p, rfl⟩
      · -- The head of the slow list: the tail of the fast one stands in front of it.
        simp [hloc, hf, hF, Option.filter]
      · by_cases hp : s.count p = s.count node
        · simp [hp, Option.filter]
        · -- All that stands in front of `p` has a higher count than `node`.
          have hnp : s.count node ≤ s.count p := hranked.split.1 p (by simp)
          have hpf : s.count p ≤ s.count f := by
            have hcross := (Ranked.append_iff.1 h.ranked).2.2
            exact hcross f (by simp [hF]) p (by simp [hS])
          have hfc : s.count f ≠ s.count node := by omega
          simp [hloc, hf, hp, hfc, Option.filter]

end TailBefore

/-! ## Without migration -/

section InPlace

variable {s : State} {F S : List NodePtr} {node t : NodePtr}

/-- In a slow class the last node is slow. -/
theorem mem_right_of_lastOf {rank : NodePtr → Nat} {k : Nat} (hnode : node ∈ S)
    (hrank : rank node = k) (hlast : lastOf rank k (F ++ S) = some t) : t ∈ S := by
  rw [lastOf_append] at hlast
  cases hS : lastOf rank k S with
  | none => exact absurd hrank (lastOf_eq_none_iff.1 hS node hnode)
  | some t' =>
      obtain rfl : t' = t := by simpa [hS] using hlast
      exact (mem_of_lastOf hS).1

/-- The node behind which a demoted node goes is in the same list. -/
theorem Valid.anchor_side (h : Valid s F S) (hnode : node ∈ F ++ S)
    (hborder : node ∈ F → ∀ n ∈ S, s.count n < s.count node - 1) {k : Nat}
    (hlow : s.count node - 1 ≤ k) (hhigh : k ≤ s.count node)
    (hlast : lastOf s.count k (F ++ S) = some t) : t ∈ F ↔ node ∈ F := by
  rcases mem_of_lastOf hlast with ⟨ht, hrank⟩
  constructor
  · intro htF
    by_contra hF
    have hS : node ∈ S := by simpa [hF] using hnode
    have hcross : s.count node ≤ s.count t := (Ranked.append_iff.1 h.ranked).2.2 t htF node hS
    -- So `t` is in the class of `node`, where the last node is slow.
    have hk : s.count node = k := by omega
    exact h.lists.disjoint htF (mem_right_of_lastOf hS hk hlast)
  · intro hF
    by_contra htF
    have htS : t ∈ S := by simpa [htF] using ht
    have := hborder hF t htS
    omega

/-- Where `node` goes: behind the last node of the class below, which does not see it leave, or
else behind what is left of its own class. -/
theorem Valid.anchor_erase (h : Valid s F S) (hnode : node ∈ F ++ S) (hc : 0 < s.count node) :
    anchor s.count (s.count node - 1) ((F ++ S).erase node) =
      (lastOf s.count (s.count node - 1) (F ++ S)).or
        (anchor s.count (s.count node) ((F ++ S).erase node)) := by
  rcases List.append_of_mem hnode with ⟨A, B, hsplit⟩
  have hlow : lastOf s.count (s.count node - 1) (A ++ B) =
      lastOf s.count (s.count node - 1) (F ++ S) := by
    rw [hsplit]
    exact lastOf_remove (Or.inr (by omega))
  have hranked : Ranked s.count ((F ++ S).erase node) := h.ranked.sublist List.erase_sublist
  have hanchor := hranked.anchor_eq (s.count node - 1)
  rwa [h.erase_eq hsplit, hlow, Nat.sub_add_cancel hc, ← h.erase_eq hsplit] at hanchor

/-- The others of its class follow `node`; it goes behind the last of them. -/
theorem Valid.anchor_own_class {t : NodePtr} (h : Valid s F S) (hnode : node ∈ F ++ S)
    (hc : 0 < s.count node) (hbelow : lastOf s.count (s.count node - 1) (F ++ S) = none)
    (hown : lastOf s.count (s.count node) (F ++ S) = some t) (hne : some t ≠ some node) :
    anchor s.count (s.count node - 1) ((F ++ S).erase node) = some t := by
  rcases List.append_of_mem hnode with ⟨A, B, hsplit⟩
  have hremove : lastOf s.count (s.count node) (A ++ B) = some t := by
    rw [← hown, hsplit]
    exact lastOf_remove (Or.inl (hsplit ▸ hown ▸ hne))
  have hranked : Ranked s.count ((F ++ S).erase node) := h.ranked.sublist List.erase_sublist
  rw [h.anchor_erase hnode hc, hbelow, Option.none_or, hranked.anchor_eq (s.count node),
    h.erase_eq hsplit, hremove, Option.some_or]

/-- The last of its class above an empty class already stands at the border of the two. -/
theorem Valid.arranged_border {A B : List NodePtr} (h : Valid s F S)
    (hsplit : F ++ S = A ++ node :: B) (hB : ∀ b ∈ B, s.count b ≠ s.count node)
    (hbelow : lastOf s.count (s.count node - 1) (F ++ S) = none) :
    Arranged s { s with tails := index s.count (s.windowSize + 1) (A ++ B) } F S F S node
      (s.count node - 1) := by
  have herase := h.erase_eq hsplit
  rw [← herase]
  refine h.arranged ⟨h.lists, List.Perm.refl F, List.Perm.refl S, rfl⟩ ?_
  rw [herase, hsplit]
  have hsorted := (hsplit ▸ h.ranked).split
  refine (place_append ?_ ?_).symm
  · intro a ha
    have := hsorted.1 a ha
    omega
  · intro b hb
    have hle := hsorted.2 b hb
    have hne := hB b hb
    have hempty := lastOf_eq_none_iff.1 hbelow b (by simp [hsplit, hb])
    omega

/-- A fast node stays in place only if the whole slow list ranks below its new place. -/
theorem Valid.demoteInPlace_spec (h : Valid s F S) (hnode : node ∈ F ++ S)
    (hc : 0 < s.count node) (hborder : node ∈ F → ∀ n ∈ S, s.count n < s.count node - 1) :
    ∃ s₁ F' S', demoteInPlace s node = some s₁ ∧
      Repositioned s (s₁.setCount node (s.count node - 1)) F S F' S' node (s.count node - 1) := by
  rcases List.append_of_mem hnode with ⟨A, B, hsplit⟩
  have herase := h.erase_eq hsplit
  have hnd : (A ++ node :: B).Nodup := hsplit ▸ h.lists.nodup
  have hcW : s.count node ≤ s.windowSize := h.bounded node hnode
  rw [demoteInPlace, State.getTail_option, h.tails_get (by omega), State.getTail_option,
    h.tails_get hcW]
  simp only [Option.bind_eq_bind, Option.bind_some]
  cases hbelow : lastOf s.count (s.count node - 1) (F ++ S) with
  | none =>
      by_cases hlast : lastOf s.count (s.count node) (F ++ S) = some node
      · have hB : ∀ b ∈ B, s.count b ≠ s.count node := (lastOf_middle hnd).1 (hsplit ▸ hlast)
        have hindex := index_remove s.count (s.windowSize + 1) A B node
        rw [← hsplit, ← h.tails] at hindex
        have hlen : s.count node < s.tails.length := by
          rw [h.tails, length_index]
          omega
        rcases (h.arranged_border hsplit hB hbelow).finish h hnode (by omega) with
          ⟨s₂, hs₂, hdone⟩
        refine ⟨s₂, F, S, ?_, hdone⟩
        simpa [hlast, h.tailBefore_eq hsplit hB, setTail_eq hlen, hindex] using hs₂
      · cases hown : lastOf s.count (s.count node) (F ++ S) with
        | none => exact absurd rfl (lastOf_eq_none_iff.1 hown node hnode)
        | some t =>
            have hne : some t ≠ some node := hown ▸ hlast
            have hkeep := replaceTail_eq (hsplit ▸ h.tails) (by omega) hnd (v := none)
              (fun hB => absurd (hsplit ▸ (lastOf_middle hnd).2 hB) hlast)
            have hstays : replaceTail s node none = some s := by
              simp [replaceTail, h.tails_get hcW, hlast]
            rw [hstays, ← herase, Option.some.injEq] at hkeep
            rcases h.relink_arranged hnode (h.anchor_own_class hnode hc hbelow hown hne)
              (h.anchor_side hnode hborder (by omega) le_rfl hown) with ⟨F', S', harranged⟩
            rw [← hkeep] at harranged
            rcases harranged.finish h hnode (by omega) with ⟨s₂, hs₂, hdone⟩
            exact ⟨s₂, F', S', by simpa [hne] using hs₂, hdone⟩
  | some t =>
      have hreplace := replaceTail_eq (hsplit ▸ h.tails) (by omega) hnd
        (h.tailBefore_eq hsplit)
      have hanchor : anchor s.count (s.count node - 1) ((F ++ S).erase node) = some t := by
        rw [h.anchor_erase hnode hc, hbelow, Option.some_or]
      rcases h.relink_arranged hnode hanchor
        (h.anchor_side hnode hborder le_rfl (by omega) hbelow) with ⟨F', S', harranged⟩
      rcases harranged.finish h hnode (by omega) with ⟨s₂, hs₂, hdone⟩
      rw [herase] at hs₂
      exact ⟨s₂, F', S', by simpa [hreplace] using hs₂, hdone⟩

end InPlace

/-! ## With migration -/

section Swap

variable {s : State} {A B S : List NodePtr} {node head : NodePtr}

/-- `node` and the head of the slow list change lists; `node` leaves the fast list when `head` is
already behind it. -/
theorem Valid.demoteExchange_spec (h : Valid s (A ++ node :: B) (head :: S)) :
    Detached s (demoteExchange s node head) (A ++ (B ++ [head])) S A (B ++ [head]) node .slow := by
  have hout : head ∉ A ++ node :: B := fun hmem => h.lists.disjoint hmem (by simp)
  have hrest : head ∉ S := (List.nodup_cons.1 h.lists.right.circular.nodup).1
  have hnAB : node ∉ A ++ B := notMem_of_nodup_middle h.lists.left.circular.nodup
  have hnS : node ∉ head :: S := h.lists.disjoint (by simp)
  have hnh : node ≠ head := fun hnh => hnS (by simp [hnh])
  have hslow : TwoLists (s.dqSlow head).links (s.dqSlow head).fastList (s.dqSlow head).slowList
      (A ++ node :: B) S := (TwoLists.dq_left (A := []) h.lists.symm).symm
  have henq := hslow.enq_left hout hrest
  rw [List.append_assoc, List.cons_append] at henq
  refine ⟨henq.dq_left, ?_, ?_, ?_, ?_, rfl, rfl, ⟨rfl, rfl, rfl, rfl, rfl, rfl⟩⟩
  · rw [← henq.left.circular.prev_middle]
    exact congrArg some henq.dq_prev
  · intro n hn
    change Function.update (Function.update s.loc head .fast) node .slow n = .fast
    have hnn : n ≠ node := by
      rintro rfl
      simp only [List.mem_append, List.mem_singleton] at hn hnAB
      tauto
    rw [Function.update_of_ne hnn]
    by_cases hnhead : n = head
    · rw [hnhead, Function.update_self]
    · rw [Function.update_of_ne hnhead]
      refine h.loc_fast n ?_
      simp only [List.mem_append, List.mem_cons] at hn ⊢
      tauto
  · intro n hn
    change Function.update (Function.update s.loc head .fast) node .slow n = .slow
    have hnn : n ≠ node := fun hnn => hnS (by simp [← hnn, hn])
    have hnhead : n ≠ head := fun hnhead => hrest (hnhead ▸ hn)
    rw [Function.update_of_ne hnn, Function.update_of_ne hnhead]
    exact h.loc_slow n (by simp [hn])
  · change Function.update (Function.update s.loc head .fast) node .slow node = .slow
    rw [Function.update_self]

/-- The place of the demoted node in the slow list. -/
theorem insertSlow_lists {X U V : List NodePtr} {t : NodePtr} {k : Nat} {rank : NodePtr → Nat}
    (h : TwoLists s.links s.fastList s.slowList X S) (hfast : ∀ n ∈ X, s.loc n = .fast)
    (hslow : ∀ n ∈ S, s.loc n = .slow) (hnode : node ∉ X ++ S)
    (hsplit : X ++ S = U ++ t :: V) (hX : ∀ n ∈ X, k ≤ rank n) (hV : ∀ n ∈ V, rank n < k) :
    ∃ S', TwoLists (insertSlow s node t).links (insertSlow s node t).fastList
        (insertSlow s node t).slowList X S' ∧
      X ++ S' = U ++ t :: node :: V ∧ S'.Perm (node :: S) ∧
      insertSlow s node t = { s with
        links := (insertSlow s node t).links
        fastList := (insertSlow s node t).fastList
        slowList := (insertSlow s node t).slowList } := by
  have hnX : node ∉ X := fun hmem => hnode (List.mem_append_left _ hmem)
  have hnS : node ∉ S := fun hmem => hnode (List.mem_append_right _ hmem)
  rcases append_eq_split hsplit with ⟨V₁, hXt, rfl⟩ | ⟨U₁, rfl, hSt⟩
  · -- The anchor is the last fast node: everything in `X` ranks at least as high.
    have hloc : s.loc t ≠ .slow := by simp [hfast t (by simp [hXt])]
    have hV₁ : V₁ = [] := by
      refine List.eq_nil_iff_forall_not_mem.2 ?_
      intro n hn
      have hhigh := hX n (by simp [hXt, hn])
      have hlow := hV n (by simp [hn])
      omega
    refine ⟨node :: S, ?_, ?_, List.Perm.refl _, ?_⟩
    · rw [insertSlow, if_neg hloc]
      exact (h.symm.push_left hnS hnX).symm
    · simp [hXt, hV₁]
    · rw [insertSlow, if_neg hloc]
      rfl
  · have hloc : s.loc t = .slow := hslow t (by simp [hSt])
    subst hSt
    refine ⟨U₁ ++ t :: node :: V, ?_, by simp, ?_, ?_⟩
    · rw [insertSlow, if_pos hloc]
      exact (h.symm.insert_left hnS hnX).symm
    · rw [List.append_cons, List.append_cons U₁ t V]
      exact List.perm_middle
    · rw [insertSlow, if_pos hloc]
      rfl

/-- Once the lists are exchanged, the class below `node`, or its own one, has a last node. -/
theorem Valid.exists_anchor (h : Valid s (A ++ node :: B) (head :: S)) (hc : 0 < s.count node)
    (hhead : s.count node - 1 ≤ s.count head) :
    ∃ t, anchor s.count (s.count node - 1) (A ++ (B ++ head :: S)) = some t ∧
      (lastOf s.count (s.count node - 1) (A ++ (B ++ head :: S)) = some t ∨
        lastOf s.count (s.count node - 1) (A ++ (B ++ head :: S)) = none ∧
          lastOf s.count (s.count node) (A ++ (B ++ head :: S)) = some t) := by
  have hranked : Ranked s.count (A ++ node :: (B ++ head :: S)) := by
    simpa using h.ranked
  have hR := hranked.remove
  have hsame : s.count node - 1 + 1 = s.count node := by omega
  rw [hR.anchor_eq (s.count node - 1), hsame, hR.anchor_eq (s.count node)]
  cases hlow : lastOf s.count (s.count node - 1) (A ++ (B ++ head :: S)) with
  | some t => exact ⟨t, rfl, Or.inl rfl⟩
  | none =>
      -- The slow head is not in the class below, so it is in the class of `node`.
      have hne := lastOf_eq_none_iff.1 hlow head (by simp)
      have hle := hranked.split.2 head (by simp)
      cases hown : lastOf s.count (s.count node) (A ++ (B ++ head :: S)) with
      | none =>
          have hother := lastOf_eq_none_iff.1 hown head (by simp)
          omega
      | some t => exact ⟨t, rfl, Or.inr ⟨rfl, rfl⟩⟩

/-- The count of the slow head is at most one below that of `node`, so the class it belongs to
ends behind every fast node. -/
theorem Valid.demoteSwap_spec (h : Valid s (A ++ node :: B) (head :: S)) (hc : 0 < s.count node)
    (hhead : s.count node - 1 ≤ s.count head) :
    ∃ s₁ F' S', demoteSwap s node head = some s₁ ∧
      Repositioned s (s₁.setCount node (s.count node - 1)) (A ++ node :: B) (head :: S) F' S' node
        (s.count node - 1) := by
  have hsplit : (A ++ node :: B) ++ head :: S = A ++ node :: (B ++ head :: S) := by simp
  have hnode : node ∈ (A ++ node :: B) ++ head :: S := by simp
  have herase := h.erase_eq hsplit
  have hnd : (A ++ node :: (B ++ head :: S)).Nodup := hsplit ▸ h.lists.nodup
  have hcW : s.count node ≤ s.windowSize := h.bounded node hnode
  have hranked := h.ranked
  rw [hsplit] at hranked
  have hx := h.demoteExchange_spec
  rcases h.exists_anchor hc hhead with ⟨t, hanchor, hread⟩
  rcases place_of_anchor_some (n := node) hranked.remove hanchor with ⟨U, V, hUV, hplace, hV⟩
  -- The predecessor that `node` was left with may be `head`, whose count is lower then.
  have hreplace := hx.replaceTail_eq (hsplit ▸ h.tails) (by omega) hnd hranked
    (by intro b hb; simp only [List.mem_append, List.mem_cons] at hb ⊢; tauto)
    (Or.inr (by simp)) rfl
  simp only [demoteSwap, Option.pure_def, hreplace, State.getTail_option, Option.bind_eq_bind,
    Option.bind_some]
  generalize demoteExchange s node head = s₁ at hx hreplace
  have hout : node ∉ A ++ (B ++ [head]) ++ S := by
    simpa using notMem_of_nodup_middle hnd
  have hhigh : ∀ n ∈ A ++ (B ++ [head]), s.count node - 1 ≤ s.count n := by
    intro n hn
    by_cases hnhead : n = head
    · rw [hnhead]
      exact hhead
    · refine hhead.trans ((Ranked.append_iff.1 h.ranked).2.2 n ?_ head (by simp))
      simp only [List.mem_append, List.mem_cons] at hn ⊢
      tauto
  rcases insertSlow_lists (s := { s₁ with
      tails := index s.count (s.windowSize + 1) (A ++ (B ++ head :: S)) }) hx.lists hx.loc_fast
      (fun n hn => hx.loc_slow n (by simp [hn])) hout (by simpa using hUV) hhigh hV with
    ⟨S', hlists, horder, hperm, hframe⟩
  have harranged := hx.arranged herase hlists hframe (fun n hn => Or.inl hn)
    (fun n hn => (List.mem_cons.1 (hperm.subset hn)).symm.imp_right (fun hnn => ⟨hnn, rfl⟩))
    (horder.trans hplace.symm) (by simp)
  rcases harranged.finish h hnode (by omega) with ⟨s₂, hs₂, hdone⟩
  refine ⟨s₂, _, _, ?_, hdone⟩
  rw [getElem?_index (by omega), getElem?_index (by omega)]
  rcases hread with hlow | ⟨hlow, hown⟩
  · simpa [hlow] using hs₂
  · simpa [hlow, hown] using hs₂

end Swap

/-! ## The whole demotion -/

theorem Valid.demote_spec {s : State} {F S : List NodePtr} {node : NodePtr} (h : Valid s F S)
    (hnode : node ∈ F ++ S) (hc : 0 < s.count node) :
    ∃ s' F' S', demote s node = some s' ∧
      Repositioned s s' F S F' S' node (s.count node - 1) := by
  have hpos : s.count node ≠ 0 := by omega
  have hinPlace : (node ∈ F → ∀ n ∈ S, s.count n < s.count node - 1) →
      ∃ s' F' S', ((demoteInPlace s node : Option State).bind fun s₁ =>
          some (s₁.setCount node (s.count node - 1))) = some s' ∧
        Repositioned s s' F S F' S' node (s.count node - 1) := by
    intro hborder
    rcases h.demoteInPlace_spec hnode hc hborder with ⟨s₁, F', S', hs₁, hdone⟩
    exact ⟨_, F', S', by rw [hs₁]; rfl, hdone⟩
  rw [demote, if_neg hpos]
  by_cases hF : node ∈ F
  · have hloc : s.loc node = .fast := h.loc_fast node hF
    have hhead : s.slowList = S.head? := h.lists.right.head
    cases S with
    | nil =>
        rw [hloc, hhead]
        exact hinPlace (by simp)
    | cons head S =>
        rw [hloc, hhead]
        simp only [List.head?_cons, Option.bind_eq_bind]
        by_cases hlow : s.count head < s.count node - 1
        · rw [if_pos hlow]
          refine hinPlace ?_
          -- The slow list is ranked, so its head bounds the rest of it.
          intro _ n hn
          have hS : Ranked s.count (head :: S) := (Ranked.append_iff.1 h.ranked).2.1
          rcases List.mem_cons.1 hn with rfl | hn
          · exact hlow
          · exact lt_of_le_of_lt ((List.pairwise_cons.1 hS).1 n hn) hlow
        · rw [if_neg hlow]
          rcases List.append_of_mem hF with ⟨A, B, rfl⟩
          rcases h.demoteSwap_spec hc (by omega) with ⟨s₁, F', S', hs₁, hdone⟩
          exact ⟨_, F', S', by rw [hs₁]; rfl, hdone⟩
  · have hS : node ∈ S := by simpa [hF] using hnode
    have hloc : s.loc node = .slow := h.loc_slow node hS
    rw [hloc]
    exact hinPlace (fun hmem => absurd hmem hF)

end Window
end Shambles
