import Shambles.Lib.CircularList

/-!
# Lists — the intrusive list operations of the migration plugins

`lru.c` and `window.c` carry the same `dq`, `push` and `enq`; `window.c` adds `insert` and
`move`.  A list is given by its head pointer `*q` (NULL for the empty list) and the `next` and
`prev` fields of its nodes.  Every function below performs the source's field writes in the
source's order; a field is read from the heap as it stands at that point.

The specifications read a list as the sequence of its nodes from the head (`Reads`).
-/

namespace Shambles
namespace Plugins

open CircularList

variable {α : Type*} [DecidableEq α]

/-! ## The operations -/

def dq (l : Links α) (q : Option α) (node : α) : Links α × Option α :=
  if q = some node then
    if l.next node = node then
      (l, none)
    else
      let q' := l.next node
      let l₁ := l.setNext (l.prev node) q'
      (l₁.setPrev q' (l₁.prev node), some q')
  else
    let next := l.next node
    let l₁ := l.setPrev next (l.prev node)
    (l₁.setNext (l₁.prev node) next, q)

def push (l : Links α) (q : Option α) (node : α) : Links α × Option α :=
  match q with
  | none => ((l.setPrev node node).setNext node node, some node)
  | some h =>
      let l₁ := l.setNext node h
      let l₂ := l₁.setPrev node (l₁.prev h)
      let l₃ := l₂.setNext (l₂.prev node) node
      (l₃.setPrev h node, some node)

def enq (l : Links α) (q : Option α) (node : α) : Links α × Option α :=
  match q with
  | none => ((l.setPrev node node).setNext node node, some node)
  | some h =>
      let l₁ := l.setNext node h
      let l₂ := l₁.setPrev node (l₁.prev h)
      let l₃ := l₂.setNext (l₂.prev node) node
      (l₃.setPrev h node, some h)

def insert (l : Links α) (node after : α) : Links α :=
  let l₁ := l.setPrev node after
  let l₂ := l₁.setNext node (l₁.next after)
  let l₃ := l₂.setPrev (l₂.next after) node
  l₃.setNext after node

def move (l : Links α) (node after : α) : Links α :=
  if node ≠ after then
    let l₁ := l.setNext (l.prev node) (l.next node)
    let l₂ := l₁.setPrev (l₁.next node) (l₁.prev node)
    insert l₂ node after
  else
    l

/-! ## The operations as heap updates -/

theorem insert_eq_linkAfter (l : Links α) (node after : α) :
    insert l node after = linkAfter l node after := by
  by_cases h : after = node
  · simp [insert, linkAfter, h]
  · simp [insert, linkAfter, h]

theorem dq_fst_of_ne {l : Links α} {q : Option α} {node : α} (h : q ≠ some node) :
    (dq l q node).1 = unlink l node := by
  by_cases hself : node = l.next node
  · simp [dq, h, unlink, Links.setNext, Links.setPrev, ← hself]
  · simp [dq, h, unlink, Links.setNext, Links.setPrev, hself]

theorem dq_head {l : Links α} {node : α} (h : l.next node ≠ node) :
    dq l (some node) node = (unlink l node, some (l.next node)) := by
  simp [dq, h, unlink, Links.setNext, Links.setPrev]

theorem dq_head_self {l : Links α} {node : α} (h : l.next node = node) :
    dq l (some node) node = (l, none) := by
  simp [dq, h]

theorem dq_snd_of_ne {l : Links α} {q : Option α} {node : α} (h : q ≠ some node) :
    (dq l q node).2 = q := by
  simp [dq, h]

/-- Away from the head, moving a node is removing and inserting it. -/
theorem move_eq {l : Links α} {q : Option α} {node after : α} (hq : q ≠ some node)
    (hne : node ≠ after) : move l node after = insert (dq l q node).1 node after := by
  rw [dq_fst_of_ne hq]
  simp [move, hne, unlink]

/-- On a non-empty list both insertions link the node between the tail and the head. -/
theorem push_some {l : Links α} {h node : α} (htail : l.next (l.prev h) = h)
    (hne : node ≠ l.prev h) :
    push l (some h) node = (linkAfter l node (l.prev h), some node) := by
  refine Prod.ext (Links.ext ?_ ?_) rfl
  · funext x
    by_cases hx : x = node <;> simp [push, linkAfter, htail, hx, hne]
  · funext x
    by_cases hx : x = h <;> simp [push, linkAfter, htail, hx]

theorem enq_some (l : Links α) (h node : α) :
    enq l (some h) node = ((push l (some h) node).1, some h) :=
  rfl

theorem circular_self (l : Links α) (node : α) :
    Circular ((l.setPrev node node).setNext node node) [node] := by
  refine ⟨by simp, List.IsChain.singleton node, ?_⟩
  intro a ha b hb
  obtain rfl : node = a := by simpa using ha
  obtain rfl : node = b := by simpa using hb
  exact ⟨by simp, by simp⟩

/-! ## Specifications -/

section Specs

variable {l : Links α} {q : Option α} {A B : List α} {xs : List α} {node after : α}

/-- `dq` removes exactly `node`; no node outside the remaining list changes. -/
theorem dq_spec (h : Reads l q (A ++ node :: B)) :
    Reads (dq l q node).1 (dq l q node).2 (A ++ B) ∧ SameOutside l (dq l q node).1 (A ++ B) := by
  have hrot : Circular l (node :: (B ++ A)) := by
    simpa using h.circular.rotate
  have hunlinked : Circular (unlink l node) (A ++ B) := hrot.unlink.rotate
  have hframe : SameOutside l (unlink l node) (A ++ B) :=
    hrot.unlink_sameOutside.mono (by intro x hx; simp at hx ⊢; exact hx.symm)
  cases A with
  | nil =>
      have hq : q = some node := by simpa using h.head
      subst hq
      cases B with
      | nil =>
          rw [dq_head_self hrot.next_singleton]
          exact ⟨⟨rfl, Circular.nil l⟩, SameOutside.refl l _⟩
      | cons b t =>
          -- The head moves to the successor of `node`.
          have hne : l.next node ≠ node := fun hself => by
            simpa using hrot.next_eq_self_iff.1 hself
          rw [dq_head hne]
          have hnext : l.next node = b := Circular.next_of_cons_cons (by simpa using hrot)
          exact ⟨⟨by simp [hnext], hunlinked⟩, hframe⟩
  | cons a A' =>
      have hq : q = some a := by simpa using h.head
      have hne : q ≠ some node := by
        intro hqn
        have hnd := h.circular.nodup
        have han : a = node := by simpa [hq] using hqn
        simp [han] at hnd
      rw [dq_fst_of_ne hne, dq_snd_of_ne hne]
      exact ⟨⟨by simp [hq], hunlinked⟩, hframe⟩

/-- The link between the tail and the head, where both insertions put their node. -/
theorem linkAfter_tail {a : α} {t : List α} (h : Circular l (a :: t)) (hn : node ∉ a :: t) :
    push l (some a) node = (linkAfter l node (l.prev a), some node) ∧
      Circular (linkAfter l node (l.prev a)) (node :: a :: t) ∧
      SameOutside l (linkAfter l node (l.prev a)) (node :: a :: t) := by
  rcases List.eq_nil_or_concat t with rfl | ⟨t', z, rfl⟩
  · have hprev : l.prev a = a := h.prev_singleton
    have hlinked : Circular (linkAfter l node a) ([a] ++ [node]) := h.linkAfter hn
    refine ⟨push_some (by rw [hprev, h.next_singleton]) (by simpa [hprev] using hn), ?_, ?_⟩
    · rw [hprev]
      exact hlinked.rotate
    · rw [hprev]
      exact h.linkAfter_sameOutside
  · rw [List.concat_eq_append] at h hn ⊢
    have hprev : l.prev a = z := h.prev_concat
    have hsplit : Circular l ((a :: t') ++ [z]) := h
    have hrot : Circular l (z :: a :: t') := hsplit.rotate
    have hn' : node ∉ z :: a :: t' := by
      intro hmem
      apply hn
      simp at hmem ⊢
      tauto
    have hlinked : Circular (linkAfter l node z) ([z] ++ node :: a :: t') := hrot.linkAfter hn'
    refine ⟨push_some (by rw [hprev, h.next_concat]) ?_, ?_, ?_⟩
    · rw [hprev]
      intro hnz
      exact hn' (by simp [hnz])
    · rw [hprev]
      exact hlinked.rotate
    · rw [hprev]
      refine hrot.linkAfter_sameOutside.mono ?_
      intro x hx
      simp at hx ⊢
      tauto

/-- `push` prepends. -/
theorem push_spec (h : Reads l q xs) (hn : node ∉ xs) :
    Reads (push l q node).1 (push l q node).2 (node :: xs) ∧
      SameOutside l (push l q node).1 (node :: xs) := by
  cases xs with
  | nil =>
      obtain rfl : q = none := by simpa using h.head
      refine ⟨⟨rfl, circular_self l node⟩, ?_⟩
      intro y hy
      have hyn : y ≠ node := by simpa using hy
      simp [push, hyn]
  | cons a t =>
      obtain rfl : q = some a := by simpa using h.head
      rcases linkAfter_tail h.circular hn with ⟨hpush, hcircular, hframe⟩
      rw [hpush]
      exact ⟨⟨rfl, hcircular⟩, hframe⟩

/-- `enq` appends. -/
theorem enq_spec (h : Reads l q xs) (hn : node ∉ xs) :
    Reads (enq l q node).1 (enq l q node).2 (xs ++ [node]) ∧
      SameOutside l (enq l q node).1 (xs ++ [node]) := by
  cases xs with
  | nil =>
      obtain rfl : q = none := by simpa using h.head
      refine ⟨⟨rfl, circular_self l node⟩, ?_⟩
      intro y hy
      have hyn : y ≠ node := by simpa using hy
      simp [enq, hyn]
  | cons a t =>
      obtain rfl : q = some a := by simpa using h.head
      rcases linkAfter_tail h.circular hn with ⟨hpush, hcircular, hframe⟩
      rw [enq_some, hpush]
      have hsplit : Circular (linkAfter l node (l.prev a)) ([node] ++ a :: t) := hcircular
      refine ⟨⟨rfl, hsplit.rotate⟩, hframe.mono ?_⟩
      intro x hx
      simp at hx ⊢
      tauto

/-- `insert` puts a node that is in no list right behind a member. -/
theorem insert_spec (h : Reads l q (A ++ after :: B)) (hn : node ∉ A ++ after :: B) :
    Reads (insert l node after) q (A ++ after :: node :: B) ∧
      SameOutside l (insert l node after) (node :: (A ++ after :: B)) := by
  rw [insert_eq_linkAfter]
  have hrot : Circular l (after :: (B ++ A)) := by simpa using h.circular.rotate
  have hn' : node ∉ after :: (B ++ A) := by
    intro hmem
    apply hn
    simp at hmem ⊢
    tauto
  have hlinked : Circular (linkAfter l node after) ((after :: node :: B) ++ A) := by
    simpa using hrot.linkAfter hn'
  refine ⟨⟨?_, hlinked.rotate⟩, hrot.linkAfter_sameOutside.mono ?_⟩
  · rw [h.head]
    cases A <;> simp
  · intro x hx
    simp at hx ⊢
    tauto

end Specs

/-! ## Splitting a list at one of its nodes -/

omit [DecidableEq α] in
theorem notMem_of_nodup_middle {A B : List α} {n : α} (h : (A ++ n :: B).Nodup) : n ∉ A ++ B :=
  (List.nodup_cons.1 (List.nodup_middle.1 h)).1

omit [DecidableEq α] in
theorem mem_middle_of_mem {A B : List α} {m n : α} (h : (A ++ n :: B).Nodup) (hm : m ∈ A ++ B) :
    m ∈ A ++ n :: B ∧ m ≠ n := by
  refine ⟨List.mem_append.2 ((List.mem_append.1 hm).imp_right (List.mem_cons_of_mem n)), ?_⟩
  rintro rfl
  exact notMem_of_nodup_middle h hm

theorem erase_middle {A B : List α} {n : α} (h : (A ++ n :: B).Nodup) :
    (A ++ n :: B).erase n = A ++ B := by
  have hA : n ∉ A := fun hA => notMem_of_nodup_middle h (List.mem_append_left _ hA)
  simp [List.erase_append_right _ hA]

/-- The nodes that stay are the same list before and after one of the others has left. -/
theorem filter_notMem_erase {L : List α} (hL : L.Nodup) (n : α) (rest : List α) :
    (L.erase n).filter (fun x => x ∉ rest) = L.filter (fun x => x ∉ n :: rest) := by
  rw [hL.erase_eq_filter, List.filter_filter]
  apply List.filter_congr
  intro y _
  by_cases hyn : y = n <;> simp [hyn]

/-! ## Moving within a list -/

section Move

variable {l : Links α} {q : Option α} {A B U V xs : List α} {node after : α}

/-- `move` takes a node that is not the head out of the list and puts it right behind `after`. -/
theorem move_spec (h : Reads l q (A ++ node :: B)) (hq : q ≠ some node)
    (hsplit : A ++ B = U ++ after :: V) :
    Reads (move l node after) q (U ++ after :: node :: V) ∧
      SameOutside l (move l node after) (A ++ node :: B) := by
  have hout : node ∉ A ++ B := notMem_of_nodup_middle h.circular.nodup
  have hne : node ≠ after := by
    rintro rfl
    exact hout (by simp [hsplit])
  rcases dq_spec h with ⟨hread, hsame⟩
  rw [dq_snd_of_ne hq] at hread
  rw [hsplit] at hread hout hsame
  rcases insert_spec hread hout with ⟨hmoved, hframe⟩
  -- Both frames lie inside the original list: it is `node` and the nodes that stay.
  have hcover : node :: (U ++ after :: V) ⊆ A ++ node :: B := by
    rw [← hsplit]
    exact List.perm_middle.symm.subset
  rw [move_eq hq hne]
  refine ⟨hmoved, SameOutside.trans (hsame.mono ?_) (hframe.mono hcover)⟩
  exact fun x hx => hcover (List.mem_cons_of_mem node hx)

/-- What the five operations do to the list `xs` held by `q`.  That the result is well formed and
that its head is the expected one are both part of `Reads`. -/
structure ActsOn (l : Links α) (q : Option α) (xs : List α) : Prop where
  removes : ∀ node ∈ xs,
    Reads (dq l q node).1 (dq l q node).2 (xs.erase node) ∧ SameOutside l (dq l q node).1 xs
  prepends : ∀ node, node ∉ xs →
    Reads (push l q node).1 (push l q node).2 (node :: xs) ∧
      SameOutside l (push l q node).1 (node :: xs)
  appends : ∀ node, node ∉ xs →
    Reads (enq l q node).1 (enq l q node).2 (xs ++ [node]) ∧
      SameOutside l (enq l q node).1 (node :: xs)
  inserts : ∀ node, node ∉ xs → ∀ after ∈ xs, ∃ U V, xs = U ++ after :: V ∧
    Reads (insert l node after) q (U ++ after :: node :: V) ∧
      SameOutside l (insert l node after) (node :: xs)
  moves : ∀ node ∈ xs, q ≠ some node → ∀ after ∈ xs, node ≠ after →
    ∃ U V, xs.erase node = U ++ after :: V ∧
      Reads (move l node after) q (U ++ after :: node :: V) ∧
        SameOutside l (move l node after) xs
  stays : ∀ node ∈ xs, move l node node = l

/-- Every operation does to a well-formed list what its name says, and nothing to the rest of
the heap. -/
theorem operations_act (h : Reads l q xs) : ActsOn l q xs where
  removes := by
    intro node hnode
    obtain ⟨A, B, rfl⟩ := List.append_of_mem hnode
    rcases dq_spec h with ⟨hread, hsame⟩
    rw [erase_middle h.circular.nodup]
    refine ⟨hread, hsame.mono ?_⟩
    exact fun x hx => (mem_middle_of_mem h.circular.nodup hx).1
  prepends := fun node hn => push_spec h hn
  appends := by
    intro node hn
    rcases enq_spec h hn with ⟨hread, hsame⟩
    exact ⟨hread, hsame.mono (List.perm_append_singleton node xs).subset⟩
  inserts := by
    intro node hn after hafter
    obtain ⟨U, V, rfl⟩ := List.append_of_mem hafter
    exact ⟨U, V, rfl, insert_spec h hn⟩
  moves := by
    intro node hnode hq after hafter hne
    obtain ⟨A, B, rfl⟩ := List.append_of_mem hnode
    -- `after` is looked up in what is left without `node`, so adjacency plays no role.
    have hstay : after ∈ A ++ B := by
      rw [← erase_middle h.circular.nodup]
      exact (List.mem_erase_of_ne hne.symm).2 hafter
    obtain ⟨U, V, hsplit⟩ := List.append_of_mem hstay
    refine ⟨U, V, ?_, move_spec h hq hsplit⟩
    rw [erase_middle h.circular.nodup, hsplit]
  stays := by
    intro node _
    simp [move]

/-- Three nodes in a ring, where every two are adjacent in both directions. -/
theorem operations_act_ring :
    ActsOn (⟨fun n => (n + 1) % 3, fun n => (n + 2) % 3⟩ : Links Nat) (some 0) [0, 1, 2] :=
  operations_act ⟨rfl, by decide, by simp [Linked], by simp [Linked]⟩

end Move

/-! ## Two lists in one heap

Both plugins keep a fast and a slow list over the same nodes.  An operation on one of them leaves
the other as it was, because the lists are disjoint.
-/

structure TwoLists (l : Links α) (p q : Option α) (xs ys : List α) : Prop where
  left : Reads l p xs
  right : Reads l q ys
  disjoint : xs.Disjoint ys

namespace TwoLists

variable {l l' : Links α} {p p' q : Option α} {xs xs' ys A B : List α} {node after : α}

omit [DecidableEq α] in
theorem symm (h : TwoLists l p q xs ys) : TwoLists l q p ys xs :=
  ⟨h.right, h.left, h.disjoint.symm⟩

omit [DecidableEq α] in
theorem nodup (h : TwoLists l p q xs ys) : (xs ++ ys).Nodup :=
  List.nodup_append'.2 ⟨h.left.circular.nodup, h.right.circular.nodup, h.disjoint⟩

omit [DecidableEq α] in
/-- What an exchange leaves behind has neither of the two nodes. -/
theorem exchange_notMem {v : α} (h : TwoLists l p q (xs ++ [v]) (A ++ node :: B)) :
    v ≠ node ∧ v ∉ xs ∧ node ∉ xs ∧ v ∉ A ++ B ∧ node ∉ A ++ B := by
  have hvright : v ∉ A ++ node :: B := h.disjoint (by simp)
  refine ⟨?_, ?_, ?_, ?_, notMem_of_nodup_middle h.right.circular.nodup⟩
  · exact fun hv => hvright (by simp [hv])
  · simpa using notMem_of_nodup_middle h.left.circular.nodup
  · exact fun hnode => h.disjoint (List.mem_append_left _ hnode) (by simp)
  · intro hv
    refine hvright ?_
    simp only [List.mem_append, List.mem_cons] at hv ⊢
    tauto

omit [DecidableEq α] in
/-- A change of the left list that touches only nodes outside the right one. -/
theorem replace_left (h : TwoLists l p q xs ys) (hread : Reads l' p' xs')
    (hsame : SameOutside l l' xs') (hdisj : xs'.Disjoint ys) : TwoLists l' p' q xs' ys :=
  ⟨hread, ⟨h.right.head, h.right.circular.frame hsame hdisj.symm⟩, hdisj⟩

theorem dq_left (h : TwoLists l p q (A ++ node :: B) ys) :
    TwoLists (dq l p node).1 (dq l p node).2 q (A ++ B) ys := by
  rcases dq_spec h.left with ⟨hread, hsame⟩
  refine h.replace_left hread hsame ?_
  intro x hx hy
  apply h.disjoint _ hy
  simp only [List.mem_append, List.mem_cons] at hx ⊢
  tauto

theorem push_left (h : TwoLists l p q xs ys) (hx : node ∉ xs) (hy : node ∉ ys) :
    TwoLists (push l p node).1 (push l p node).2 q (node :: xs) ys := by
  rcases push_spec h.left hx with ⟨hread, hsame⟩
  exact h.replace_left hread hsame (List.disjoint_cons_left.2 ⟨hy, h.disjoint⟩)

theorem insert_left (h : TwoLists l p q (A ++ after :: B) ys) (hx : node ∉ A ++ after :: B)
    (hy : node ∉ ys) : TwoLists (insert l node after) p q (A ++ after :: node :: B) ys := by
  rcases insert_spec h.left hx with ⟨hread, hsame⟩
  have hperm : (A ++ after :: node :: B).Perm (node :: (A ++ after :: B)) := by
    rw [List.append_cons, List.append_cons A after B]
    exact List.perm_middle
  refine h.replace_left hread (hsame.mono hperm.symm.subset) ?_
  intro x hmem hxy
  rcases List.mem_cons.1 (hperm.subset hmem) with rfl | hmem
  · exact hy hxy
  · exact h.disjoint hmem hxy

/-- Removing a node and inserting it elsewhere in the same list. -/
theorem relink_left {U V : List α} (h : TwoLists l p q (A ++ node :: B) ys)
    (hsplit : A ++ B = U ++ after :: V) :
    TwoLists (insert (dq l p node).1 node after) (dq l p node).2 q (U ++ after :: node :: V) ys := by
  have hout : node ∉ A ++ B := notMem_of_nodup_middle h.left.circular.nodup
  have hy : node ∉ ys := h.disjoint (by simp)
  have hdq := h.dq_left
  rw [hsplit] at hdq hout
  exact hdq.insert_left hout hy

/-- Removing a node and putting it in front of the same list. -/
theorem front_left (h : TwoLists l p q (A ++ node :: B) ys) :
    TwoLists (push (dq l p node).1 (dq l p node).2 node).1
      (push (dq l p node).1 (dq l p node).2 node).2 q (node :: (A ++ B)) ys :=
  h.dq_left.push_left (notMem_of_nodup_middle h.left.circular.nodup) (h.disjoint (by simp))

/-- A removed node keeps its own fields. -/
theorem dq_prev (h : TwoLists l p q (A ++ node :: B) ys) :
    (dq l p node).1.prev node = l.prev node :=
  ((dq_spec h.left).2 node (notMem_of_nodup_middle h.left.circular.nodup)).2

theorem enq_left (h : TwoLists l p q xs ys) (hx : node ∉ xs) (hy : node ∉ ys) :
    TwoLists (enq l p node).1 (enq l p node).2 q (xs ++ [node]) ys := by
  rcases enq_spec h.left hx with ⟨hread, hsame⟩
  refine h.replace_left hread hsame ?_
  exact List.disjoint_append_left.2 ⟨h.disjoint, by simpa using hy⟩

end TwoLists

end Plugins
end Shambles
