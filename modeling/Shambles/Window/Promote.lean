import Shambles.Window.Ranking

/-!
# Promote — the second half of a sample

The sampled chunk gains one in its count.  `promote` keeps the state valid and moves its node to
the end of the class above (`promote_spec`), with two exceptions that the source does not guard
against.  The search for the next occupied class starts at `tails[count + 2]` and reads past the
array for a count of `windowSize - 1`.  And the only slow node, when it leaves its class while the
class above is occupied, finds itself as its own predecessor and stays in `tails`.
-/

namespace Shambles
namespace Window

open CircularList RankedList Structures Plugins

section InPlace

variable {s : State} {F S A B : List NodePtr} {node t : NodePtr}

/-- Leaving a class upwards, without migration: nobody on the other side of the border is in it. -/
theorem Valid.otherPrevInClass_eq_lastOf (h : Valid s F S) (hsplit : F ++ S = A ++ node :: B)
    (hborder : node ∈ S → ∀ n ∈ F, s.count node < s.count n)
    (hB : ∀ b ∈ B, s.count b ≠ s.count node) :
    otherPrevInClass s node = lastOf s.count (s.count node) (A ++ B) := by
  have hranked := h.ranked
  rw [hsplit] at hranked
  rw [hranked.lastOf_remove_last hB]
  rcases append_eq_split hsplit with ⟨B₁, hF, rfl⟩ | ⟨A₁, rfl, hS⟩
  · have hcirc := h.lists.left.circular
    rw [hF] at hcirc
    exact otherPrevInClass_eq hcirc (fun b hb => hB b (by simp [hb]))
  · have hcirc := h.lists.right.circular
    rw [hS] at hcirc
    rw [otherPrevInClass_eq hcirc hB, List.getLast?_append]
    rcases List.eq_nil_or_concat' A₁ with rfl | ⟨A', p, rfl⟩
    · cases hf : F.getLast? with
      | none => simp
      | some f =>
          have hlt := hborder (by simp [hS]) f (List.mem_of_getLast? hf)
          have hne : s.count f ≠ s.count node := by omega
          simp [Option.filter, hne]
    · simp

/-- The search over the nodes that stay ends at their anchor: no count exceeds `windowSize`. -/
theorem Valid.searchTail_remove (h : Valid s F S) (hsplit : F ++ S = A ++ node :: B) {k : Nat}
    (hk : k ≤ s.windowSize) :
    searchTail (index s.count (s.windowSize + 1) (A ++ B)) (s.windowSize - k) k =
      some (anchor s.count k (A ++ B)) := by
  have hranked : Ranked s.count (A ++ node :: B) := hsplit ▸ h.ranked
  refine searchTail_eq hranked.remove _ _ (by omega) ?_
  intro n hn
  rw [← h.erase_eq hsplit] at hn
  have hle := h.bounded n (List.mem_of_mem_erase hn)
  omega

/-- A promoted node moves forward: its anchor precedes it. -/
theorem Valid.anchor_before (h : Valid s F S) (hsplit : F ++ S = A ++ node :: B)
    (hanchor : anchor s.count (s.count node + 1) (A ++ B) = some t) : t ∈ A := by
  rcases mem_of_anchor hanchor with ⟨ht, hrank⟩
  have hranked := h.ranked
  rw [hsplit] at hranked
  rcases List.mem_append.1 ht with hA | hB
  · exact hA
  · have := hranked.split.2 t hB
    omega

/-- A node with a predecessor in its list is not a list head. -/
theorem head_ne_of_before {l : Links NodePtr} {q : Option NodePtr} {X Y : List NodePtr}
    (h : Reads l q (X ++ node :: Y)) (hX : X ≠ []) : q ≠ some node := by
  cases X with
  | nil => exact absurd rfl hX
  | cons a X =>
      intro hhead
      have hnd := h.circular.nodup
      have ha : a = node := by simpa [h.head] using hhead
      simp [ha] at hnd

/-- Away from the heads, with the anchor in the list of `node`. -/
theorem Valid.move_arranged (h : Valid s F S) (hsplit : F ++ S = A ++ node :: B) {k : Nat}
    (hanchor : anchor s.count k (A ++ B) = some t) (hside : t ∈ F ↔ node ∈ F)
    (hfast : s.fastList ≠ some node) (hslow : s.slowList ≠ some node) :
    ∃ F' S', Arranged s
      (promoteBehind { s with tails := index s.count (s.windowSize + 1) (A ++ B) } node t)
      F S F' S' node k := by
  have hnode : node ∈ F ++ S := by simp [hsplit]
  have herase := h.erase_eq hsplit
  have ht : t ∈ F ++ S := by
    have hmem := (mem_of_anchor hanchor).1
    rw [← herase] at hmem
    exact List.mem_of_mem_erase hmem
  have hloc : s.loc t = s.loc node := by
    by_cases hF : node ∈ F
    · rw [h.loc_fast t (hside.2 hF), h.loc_fast node hF]
    · have htF : t ∉ F := fun htF => hF (hside.1 htF)
      rw [h.loc_slow t (by simpa [htF] using ht), h.loc_slow node (by simpa [hF] using hnode)]
  rcases h.relink_arranged hnode (herase ▸ hanchor) hside with ⟨F', S', harranged⟩
  rw [herase] at harranged
  exact ⟨F', S', by simpa [promoteBehind, hloc, relink, hfast, hslow] using harranged⟩

/-- With an anchor the node goes right behind it, or, if the anchor is the last fast node and
`node` is slow, to the front of the slow list. -/
theorem Valid.promoteBehind_arranged (h : Valid s F S) (hsplit : F ++ S = A ++ node :: B)
    (hborder : node ∈ S → ∀ n ∈ F, s.count node < s.count n)
    (hanchor : anchor s.count (s.count node + 1) (A ++ B) = some t) :
    ∃ F' S', Arranged s
      (promoteBehind { s with tails := index s.count (s.windowSize + 1) (A ++ B) } node t)
      F S F' S' node (s.count node + 1) := by
  have herase := h.erase_eq hsplit
  have htA : t ∈ A := h.anchor_before hsplit hanchor
  rcases append_eq_split hsplit with ⟨B₁, hF, rfl⟩ | ⟨A₁, rfl, hS⟩
  · have hnS : node ∉ S := h.lists.disjoint (by simp [hF])
    exact h.move_arranged hsplit hanchor (by simp [hF, htA])
      (head_ne_of_before (hF ▸ h.lists.left) (List.ne_nil_of_mem htA))
      (h.lists.right.head_ne hnS)
  · have hnF : node ∉ F := fun hmem => h.lists.disjoint hmem (by simp [hS])
    by_cases htF : t ∈ F
    · -- All fast nodes rank above the new class, all slow ones below it.
      have hloc : ¬ s.loc t = s.loc node := by
        simp [h.loc_fast t htF, h.loc_slow node (by simp [hS])]
      have hranked := h.ranked
      rw [hsplit] at hranked
      rcases place_of_anchor_some (n := node) hranked.remove hanchor with ⟨U, V, hUV, _, hV⟩
      have hbelow : ∀ n ∈ A₁ ++ B, s.count n < s.count node + 1 := by
        rw [List.append_assoc] at hUV
        rcases append_eq_split hUV with ⟨V₁, _, rfl⟩ | ⟨U₁, _, hright⟩
        · exact fun n hn => hV n (List.mem_append_right _ hn)
        · refine (h.lists.disjoint htF ?_).elim
          have hmem : t ∈ A₁ ++ B := by simp [hright]
          simp only [hS, List.mem_append, List.mem_cons] at hmem ⊢
          tauto
      refine ⟨F, node :: (A₁ ++ B), ?_⟩
      rw [← herase]
      have hmove := Reordered.front_slow (s := { s with
        tails := index s.count (s.windowSize + 1) ((F ++ S).erase node) }) (hS ▸ h.lists)
      rw [← hS] at hmove
      have harranged := h.arranged (k := s.count node + 1) hmove (by
        rw [herase, List.append_assoc]
        exact (place_append (hborder (by simp [hS])) hbelow).symm)
      simpa [promoteBehind, hloc] using harranged
    · have htA₁ : t ∈ A₁ := by simpa [htF] using htA
      exact h.move_arranged hsplit hanchor (by simp [htF, hnF]) (h.lists.left.head_ne hnF)
        (head_ne_of_before (hS ▸ h.lists.right) (List.ne_nil_of_mem htA₁))

/-- Without an anchor the node becomes the first of all; it is fast then. -/
theorem Valid.promoteFirst_arranged (h : Valid s F S) (hsplit : F ++ S = A ++ node :: B)
    (hborder : node ∈ S → ∀ n ∈ F, s.count node < s.count n)
    (hanchor : anchor s.count (s.count node + 1) (A ++ B) = none) :
    ∃ F' S', Arranged s
      (({ s with tails := index s.count (s.windowSize + 1) (A ++ B) }.dqFast node).pushFast node)
      F S F' S' node (s.count node + 1) := by
  have herase := h.erase_eq hsplit
  have hranked := h.ranked
  rw [hsplit] at hranked
  rcases append_eq_split hsplit with ⟨B₁, hF, rfl⟩ | ⟨A₁, rfl, hS⟩
  · refine ⟨node :: (A ++ B₁), S, ?_⟩
    rw [← herase]
    have hmove := Reordered.front_fast (s := { s with
      tails := index s.count (s.windowSize + 1) ((F ++ S).erase node) }) (hF ▸ h.lists)
    rw [← hF] at hmove
    refine h.arranged hmove ?_
    rw [herase, place_of_anchor_none hranked.remove hanchor]
    simp
  · -- A slow node has the fast ones above it.
    rcases List.exists_mem_of_ne_nil F (h.fast_ne_nil (by simp [hS])) with ⟨f, hf⟩
    have hlt := hborder (by simp [hS]) f hf
    have hge := anchor_eq_none_iff.1 hanchor f (by simp [hf])
    omega

/-- When the class above is occupied, only the slow list can have `node` as its one element. -/
theorem Valid.prev_ne_self (h : Valid s F S) (hsplit : F ++ S = A ++ node :: B)
    (hanchor : anchor s.count (s.count node + 1) (A ++ B) = some t) (hS : S ≠ [node]) :
    s.links.prev node ≠ node := by
  intro hself
  have htA : t ∈ A := h.anchor_before hsplit hanchor
  rcases append_eq_split hsplit with ⟨B₁, hF, _⟩ | ⟨A₁, _, hSsplit⟩
  · have hrot : Circular s.links (node :: (B₁ ++ A)) := by
      have hcirc := h.lists.left.circular
      rw [hF] at hcirc
      simpa using hcirc.rotate
    have hnil := List.append_eq_nil_iff.1 (hrot.prev_eq_self_iff.1 hself)
    simp [hnil.2] at htA
  · have hrot : Circular s.links (node :: (B ++ A₁)) := by
      have hcirc := h.lists.right.circular
      rw [hSsplit] at hcirc
      simpa using hcirc.rotate
    have hnil := List.append_eq_nil_iff.1 (hrot.prev_eq_self_iff.1 hself)
    exact hS (by simp [hSsplit, hnil.1, hnil.2])

theorem Valid.promoteInPlace_spec (h : Valid s F S) (hnode : node ∈ F ++ S)
    (hc : s.count node + 2 ≤ s.windowSize)
    (hborder : node ∈ S → ∀ n ∈ F, s.count node < s.count n)
    (hsingle : S = [node] → lastOf s.count (s.count node + 1) (F ++ S) = none) :
    ∃ s₁ F' S', promoteInPlace s node = some s₁ ∧
      Repositioned s (s₁.setCount node (s.count node + 1)) F S F' S' node (s.count node + 1) := by
  rcases List.append_of_mem hnode with ⟨A, B, hsplit⟩
  have hnd : (A ++ node :: B).Nodup := hsplit ▸ h.lists.nodup
  have hranked : Ranked s.count (A ++ node :: B) := hsplit ▸ h.ranked
  have hretire := h.otherPrevInClass_eq_lastOf hsplit hborder
  -- `tails` forgets `node`, given the right successor for its entry.
  have hreplace : ∀ v, v = otherPrevInClass s node → replaceTail s node (some v) =
      some { s with tails := index s.count (s.windowSize + 1) (A ++ B) } := by
    rintro v rfl
    exact replaceTail_eq (hsplit ▸ h.tails) (by omega) hnd (fun hB => congrArg some (hretire hB))
  have hanchor := hranked.remove.anchor_eq (s.count node + 1)
  have hhigh : lastOf s.count (s.count node + 1) (A ++ B) =
      lastOf s.count (s.count node + 1) (F ++ S) := by
    rw [hsplit]
    exact lastOf_remove (Or.inr (by omega))
  rw [hhigh] at hanchor
  rw [promoteInPlace, State.getTail_option, h.tails_get (by omega)]
  simp only [Option.pure_def, Option.bind_eq_bind, Option.bind_some]
  cases hnext : lastOf s.count (s.count node + 1) (F ++ S) with
  | none =>
      rw [hnext, Option.none_or] at hanchor
      have hsearch := h.searchTail_remove hsplit hc
      cases hfound : anchor s.count (s.count node + 2) (A ++ B) with
      | none =>
          rcases h.promoteFirst_arranged hsplit hborder (hanchor.trans hfound) with
            ⟨F', S', harranged⟩
          rcases harranged.finish h hnode (by omega) with ⟨s₂, hs₂, hdone⟩
          exact ⟨s₂, F', S', by simpa [hreplace _ rfl, hsearch, hfound] using hs₂, hdone⟩
      | some t =>
          rcases h.promoteBehind_arranged hsplit hborder (hanchor.trans hfound) with
            ⟨F', S', harranged⟩
          rcases harranged.finish h hnode (by omega) with ⟨s₂, hs₂, hdone⟩
          exact ⟨s₂, F', S', by simpa [hreplace _ rfl, hsearch, hfound] using hs₂, hdone⟩
  | some t =>
      rw [hnext, Option.some_or] at hanchor
      have hself : s.links.prev node ≠ node := by
        refine h.prev_ne_self hsplit hanchor ?_
        intro hS
        simp [hsingle hS] at hnext
      have hother : prevInClass s node = otherPrevInClass s node := by
        rw [otherPrevInClass, if_neg hself]
      rcases h.promoteBehind_arranged hsplit hborder hanchor with ⟨F', S', harranged⟩
      rcases harranged.finish h hnode (by omega) with ⟨s₂, hs₂, hdone⟩
      exact ⟨s₂, F', S', by simpa [hreplace _ hother] using hs₂, hdone⟩

end InPlace

/-! ## With migration -/

section Swap

variable {s : State} {F A B : List NodePtr} {node tail : NodePtr}

/-- `node` and the tail of the fast list change lists; `node` leaves the slow list when `tail` is
already in front of it. -/
theorem Valid.promoteExchange_spec (h : Valid s (F ++ [tail]) (A ++ node :: B)) :
    Detached s (promoteExchange s node tail) F (tail :: (A ++ B)) (tail :: A) B node .fast := by
  have htS : tail ∉ A ++ node :: B := h.lists.disjoint (by simp)
  rcases h.lists.exchange_notMem with ⟨htn, htF, hnF, _, hnAB⟩
  have hfast : TwoLists (s.dqFast tail).links (s.dqFast tail).fastList (s.dqFast tail).slowList
      F (A ++ node :: B) := by
    have hdq := TwoLists.dq_left (B := []) h.lists
    rwa [List.append_nil] at hdq
  have hpush : TwoLists _ _ _ ((tail :: A) ++ node :: B) F := hfast.symm.push_left htS htF
  refine ⟨hpush.dq_left.symm, ?_, ?_, ?_, ?_, rfl, rfl, ⟨rfl, rfl, rfl, rfl, rfl, rfl⟩⟩
  · rw [← hpush.left.circular.prev_middle]
    exact congrArg some hpush.dq_prev
  · intro n hn
    change Function.update (Function.update s.loc tail .slow) node .fast n = .fast
    have hnn : n ≠ node := fun hnn => hnF (hnn ▸ hn)
    have hntail : n ≠ tail := fun hntail => htF (hntail ▸ hn)
    rw [Function.update_of_ne hnn, Function.update_of_ne hntail]
    exact h.loc_fast n (by simp [hn])
  · intro n hn
    change Function.update (Function.update s.loc tail .slow) node .fast n = .slow
    rcases List.mem_cons.1 hn with rfl | hnAB'
    · rw [Function.update_of_ne htn, Function.update_self]
    · have hnn : n ≠ node := fun hnn => hnAB (hnn ▸ hnAB')
      have hnS : n ∈ A ++ node :: B := by
        simp only [List.mem_append, List.mem_cons] at hnAB' ⊢
        tauto
      have hntail : n ≠ tail := fun hntail => htS (hntail ▸ hnS)
      rw [Function.update_of_ne hnn, Function.update_of_ne hntail]
      exact h.loc_slow n hnS
  · change Function.update (Function.update s.loc tail .slow) node .fast node = .fast
    rw [Function.update_self]

/-- From the old tail on, no count exceeds that of `node`: the anchor is a node that stays fast. -/
theorem Valid.swap_anchor_notMem (h : Valid s (F ++ [tail]) (A ++ node :: B))
    (htail : s.count tail ≤ s.count node) {t : NodePtr}
    (hfound : anchor s.count (s.count node + 1) (F ++ tail :: (A ++ B)) = some t) :
    t ∉ tail :: (A ++ B) := by
  intro hmem
  have hranked : Ranked s.count ((F ++ tail :: A) ++ node :: B) := by simpa using h.ranked
  have hR : Ranked s.count (F ++ tail :: (A ++ B)) := by simpa using hranked.remove
  have hle := (List.pairwise_cons.1 (Ranked.append_iff.1 hR).2.1).1
  have hrank := (mem_of_anchor hfound).2
  rcases List.mem_cons.1 hmem with rfl | hAB
  · omega
  · have hlow := hle t hAB
    omega

/-- The fast tail has the count of `node`, as has everything between them. -/
theorem Valid.promoteSwap_spec (h : Valid s (F ++ [tail]) (A ++ node :: B))
    (hc : s.count node + 1 ≤ s.windowSize) (htail : s.count tail ≤ s.count node) :
    ∃ s₁ F' S', promoteSwap s node tail = some s₁ ∧
      Repositioned s (s₁.setCount node (s.count node + 1)) (F ++ [tail]) (A ++ node :: B) F' S'
        node (s.count node + 1) := by
  have hsplit : (F ++ [tail]) ++ (A ++ node :: B) = (F ++ tail :: A) ++ node :: B := by simp
  have hnode : node ∈ (F ++ [tail]) ++ (A ++ node :: B) := by simp
  have herase := h.erase_eq hsplit
  have hnd : ((F ++ tail :: A) ++ node :: B).Nodup := hsplit ▸ h.lists.nodup
  have hranked : Ranked s.count ((F ++ tail :: A) ++ node :: B) := hsplit ▸ h.ranked
  have hR := hranked.remove
  have hx := h.promoteExchange_spec
  have hreplace := hx.replaceTail_eq (hsplit ▸ h.tails) (by omega) hnd hranked
    (List.Subset.refl B) (Or.inl (by simp))
    (by rw [List.getLast?_append, List.getLast?_cons, Option.some_or])
  -- `promoteSwap` searches with the `windowSize` of the state behind the exchange.
  have hsearch : searchTail (index s.count (s.windowSize + 1) (F ++ tail :: A ++ B))
      ((promoteExchange s node tail).windowSize - (s.count node + 1)) (s.count node + 1) =
      some (anchor s.count (s.count node + 1) (F ++ tail :: A ++ B)) := by
    rw [hx.rest.windowSize]
    exact h.searchTail_remove hsplit hc
  simp only [promoteSwap, Option.pure_def, hreplace, Option.bind_eq_bind, Option.bind_some, hsearch]
  generalize promoteExchange s node tail = s₁ at hx
  rcases h.lists.exchange_notMem with ⟨htn, _, hnF, _, hnAB⟩
  have hnS : node ∉ tail :: (A ++ B) := by
    simpa [Ne.symm htn] using hnAB
  have hassoc : F ++ tail :: A ++ B = F ++ tail :: (A ++ B) := by simp
  cases hfound : anchor s.count (s.count node + 1) (F ++ tail :: A ++ B) with
  | none =>
      have harranged := hx.arranged (k := s.count node + 1)
        (u := { s₁ with
          tails := index s.count (s.windowSize + 1) (F ++ tail :: A ++ B) }.pushFast node)
        herase (hx.lists.push_left hnF hnS) rfl
        (fun n hn => (List.mem_cons.1 hn).symm.imp_right (fun hnn => ⟨hnn, rfl⟩))
        (fun n hn => Or.inl hn) (by rw [place_of_anchor_none hR hfound]; simp) (by simp)
      rcases harranged.finish h hnode (by omega) with ⟨s₂, hs₂, hdone⟩
      exact ⟨s₂, _, _, hs₂, hdone⟩
  | some t =>
      rcases place_of_anchor_some (n := node) hR hfound with ⟨U, V, hUV, hplace, _⟩
      rw [hassoc] at hUV hfound
      rcases append_eq_split hUV with ⟨V₁, rfl, rfl⟩ | ⟨U₁, _, hright⟩
      · have harranged := hx.arranged (k := s.count node + 1)
          (u := { s₁ with
            tails := index s.count (s.windowSize + 1) (U ++ t :: V₁ ++ tail :: A ++ B) }.insert
              node t)
          herase (hx.lists.insert_left hnF hnS) rfl
          (fun n hn => by
            simp only [List.mem_append, List.mem_cons] at hn ⊢
            tauto)
          (fun n hn => Or.inl hn) (by rw [hplace]; simp) (by simp)
        rcases harranged.finish h hnode (by omega) with ⟨s₂, hs₂, hdone⟩
        exact ⟨s₂, _, _, hs₂, hdone⟩
      · exact absurd (by simp [hright]) (h.swap_anchor_notMem htail hfound)

end Swap

/-! ## The whole promotion -/

theorem Valid.promote_spec {s : State} {F S : List NodePtr} {node : NodePtr} (h : Valid s F S)
    (hnode : node ∈ F ++ S) (hc : s.count node + 2 ≤ s.windowSize)
    (hsingle : S = [node] → (∀ n ∈ F, s.count node < s.count n) →
      lastOf s.count (s.count node + 1) (F ++ S) = none) :
    ∃ s' F' S', promote s node = some s' ∧
      Repositioned s s' F S F' S' node (s.count node + 1) := by
  have hinPlace : (node ∈ S → ∀ n ∈ F, s.count node < s.count n) →
      ∃ s' F' S', ((promoteInPlace s node : Option State).bind fun s₁ =>
          some (s₁.setCount node (s.count node + 1))) = some s' ∧
        Repositioned s s' F S F' S' node (s.count node + 1) := by
    intro hborder
    rcases h.promoteInPlace_spec hnode hc hborder
      (fun hS => hsingle hS (hborder (by simp [hS]))) with ⟨s₁, F', S', hs₁, hdone⟩
    exact ⟨_, F', S', by rw [hs₁]; rfl, hdone⟩
  by_cases hF : node ∈ F
  · rw [promote, h.loc_fast node hF]
    exact hinPlace (fun hS => (h.lists.disjoint hF hS).elim)
  · have hS : node ∈ S := by simpa [hF] using hnode
    rcases List.eq_nil_or_concat' F with hnil | ⟨F₀, tail, rfl⟩
    · exact absurd hnil (h.fast_ne_nil (List.ne_nil_of_mem hS))
    · have htail : s.fastTail = some tail := by simp [h.fastTail_eq]
      rw [promote, h.loc_slow node hS]
      simp only [orFault_option, htail, Option.bind_eq_bind, Option.bind_some]
      by_cases hlow : s.count tail > s.count node
      · rw [if_pos hlow]
        refine hinPlace ?_
        -- The tail has the lowest count of the fast list.
        intro _ n hn
        have hFranked : Ranked s.count (F₀ ++ [tail]) := (Ranked.append_iff.1 h.ranked).1
        rcases List.mem_append.1 hn with hn | hn
        · exact lt_of_lt_of_le hlow ((Ranked.append_iff.1 hFranked).2.2 n hn tail (by simp))
        · rw [List.mem_singleton.1 hn]
          exact hlow
      · rw [if_neg hlow]
        rcases List.append_of_mem hS with ⟨A, B, rfl⟩
        rcases h.promoteSwap_spec (by omega) (by omega) with ⟨s₁, F', S', hs₁, hdone⟩
        exact ⟨_, F', S', by rw [hs₁]; rfl, hdone⟩

end Window
end Shambles
