import Mathlib.Data.List.Chain
import Mathlib.Data.List.Nodup
import Mathlib.Tactic

/-!
# CircularList — intrusive circular doubly linked lists over a heap of links

A heap of `next`/`prev` fields (`Links`) carries any number of circular lists at once.
`Circular l xs` says that following `next` from the first node of `xs` visits exactly `xs` and
returns to the start, with every `prev` field pointing back.

The predicate is stable under rotation, so "which node is the head" is a separate question:
a list held by a nullable head pointer is `Reads l q xs`.  The primitive heap updates are

* `unlink l n` — take `n` out of its cycle, leaving its own fields as they were;
* `linkAfter l n a` — put `n` between `a` and the successor of `a`.

Both leave every node outside the cycle (and the argument) untouched.
-/

namespace Shambles
namespace CircularList

variable {α : Type*}

/-- The two link fields of every node. -/
@[ext] structure Links (α : Type*) where
  next : α → α
  prev : α → α

namespace Links

variable [DecidableEq α]

def setNext (l : Links α) (a v : α) : Links α :=
  { l with next := Function.update l.next a v }

def setPrev (l : Links α) (a v : α) : Links α :=
  { l with prev := Function.update l.prev a v }

@[simp] theorem setNext_prev (l : Links α) (a v : α) : (l.setNext a v).prev = l.prev := rfl

@[simp] theorem setPrev_next (l : Links α) (a v : α) : (l.setPrev a v).next = l.next := rfl

@[simp] theorem setNext_next (l : Links α) (a v x : α) :
    (l.setNext a v).next x = if x = a then v else l.next x := by
  simp [setNext, Function.update_apply]

@[simp] theorem setPrev_prev (l : Links α) (a v x : α) :
    (l.setPrev a v).prev x = if x = a then v else l.prev x := by
  simp [setPrev, Function.update_apply]

end Links

/-- `b` is the successor of `a`, and the back link agrees. -/
def Linked (l : Links α) (a b : α) : Prop :=
  l.next a = b ∧ l.prev b = a

/-- The nodes `xs`, in this order, form one circular list of the heap `l`. -/
structure Circular (l : Links α) (xs : List α) : Prop where
  nodup : xs.Nodup
  chain : xs.IsChain (Linked l)
  closed : ∀ a ∈ xs.getLast?, ∀ b ∈ xs.head?, Linked l a b

/-- The head pointer `q` (`none` for NULL) holds the circular list `xs`. -/
structure Reads (l : Links α) (q : Option α) (xs : List α) : Prop where
  head : q = xs.head?
  circular : Circular l xs

theorem Reads.head_ne {l : Links α} {q : Option α} {xs : List α} {n : α} (h : Reads l q xs)
    (hn : n ∉ xs) : q ≠ some n := by
  intro hhead
  rw [h.head] at hhead
  exact hn (List.mem_of_mem_head? hhead)

/-- The heaps agree on both fields of every node outside `xs`. -/
def SameOutside (l l' : Links α) (xs : List α) : Prop :=
  ∀ y, y ∉ xs → l'.next y = l.next y ∧ l'.prev y = l.prev y

namespace SameOutside

theorem refl (l : Links α) (xs : List α) : SameOutside l l xs :=
  fun _ _ => ⟨rfl, rfl⟩

theorem trans {l₁ l₂ l₃ : Links α} {xs : List α}
    (h₁ : SameOutside l₁ l₂ xs) (h₂ : SameOutside l₂ l₃ xs) : SameOutside l₁ l₃ xs := by
  intro y hy
  rw [(h₂ y hy).1, (h₂ y hy).2]
  exact h₁ y hy

theorem mono {l l' : Links α} {xs ys : List α} (h : SameOutside l l' xs) (hsub : xs ⊆ ys) :
    SameOutside l l' ys :=
  fun y hy => h y (fun hmem => hy (hsub hmem))

end SameOutside

/-! ## Frame rules -/

/-- A chain only reads `next` before its last node and `prev` after its first node. -/
theorem isChain_frame {l l' : Links α} :
    ∀ {xs : List α}, xs.IsChain (Linked l) →
      (∀ a ∈ xs.dropLast, l'.next a = l.next a) →
      (∀ b ∈ xs.tail, l'.prev b = l.prev b) → xs.IsChain (Linked l')
  | [], _, _, _ => List.IsChain.nil
  | [a], _, _, _ => List.IsChain.singleton a
  | a :: b :: t, h, hnext, hprev => by
      rcases List.isChain_cons_cons.1 h with ⟨hab, hrest⟩
      refine List.isChain_cons_cons.2 ⟨⟨?_, ?_⟩, ?_⟩
      · rw [hnext a (by simp)]
        exact hab.1
      · rw [hprev b (by simp)]
        exact hab.2
      · apply isChain_frame hrest
        · intro x hx
          exact hnext x (by simp [hx])
        · intro x hx
          exact hprev x (by simp at hx ⊢; exact Or.inr hx)

namespace Circular

variable {l l' : Links α} {xs ys : List α} {a b n : α}

theorem nil (l : Links α) : Circular l [] :=
  ⟨List.nodup_nil, List.IsChain.nil, by simp⟩

theorem congr (h : Circular l xs)
    (hsame : ∀ y ∈ xs, l'.next y = l.next y ∧ l'.prev y = l.prev y) : Circular l' xs := by
  refine ⟨h.nodup, ?_, ?_⟩
  · apply isChain_frame h.chain
    · intro y hy
      exact (hsame y (List.mem_of_mem_dropLast hy)).1
    · intro y hy
      exact (hsame y (List.mem_of_mem_tail hy)).2
  · intro y hy z hz
    have hlink := h.closed y hy z hz
    refine ⟨?_, ?_⟩
    · rw [(hsame y (List.mem_of_getLast? hy)).1]
      exact hlink.1
    · rw [(hsame z (List.mem_of_head? hz)).2]
      exact hlink.2

/-- A cycle disjoint from the touched nodes survives. -/
theorem frame (h : Circular l ys) (hsame : SameOutside l l' xs) (hdisj : ys.Disjoint xs) :
    Circular l' ys :=
  h.congr fun y hy => hsame y (fun hmem => hdisj hy hmem)

theorem rotate (h : Circular l (xs ++ ys)) : Circular l (ys ++ xs) := by
  rcases List.isChain_append.1 h.chain with ⟨hxs, hys, hmid⟩
  refine ⟨(List.nodup_append_comm).1 h.nodup, List.isChain_append.2 ⟨hys, hxs, ?_⟩, ?_⟩
  · intro x hx y hy
    apply h.closed x _ y _
    · simp only [Option.mem_def] at hx ⊢
      simp [hx]
    · simp only [Option.mem_def] at hy ⊢
      simp [hy]
  · intro x hx y hy
    -- If either part is empty the two closing links are the same one.
    cases xs with
    | nil => exact h.closed x (by simpa using hx) y (by simpa using hy)
    | cons x₀ xs' =>
        cases ys with
        | nil => exact h.closed x (by simpa using hx) y (by simpa using hy)
        | cons y₀ ys' =>
            rw [List.getLast?_append_cons] at hx
            exact hmid x hx y (by simpa using hy)

/-! ## Reading the fields of a cycle -/

theorem next_of_cons_cons {t : List α} (h : Circular l (a :: b :: t)) : l.next a = b :=
  (List.isChain_cons_cons.1 h.chain).1.1

theorem prev_of_getLast? (h : Circular l (a :: xs)) (hb : b ∈ (a :: xs).getLast?) : l.prev a = b :=
  (h.closed b hb a (by simp)).2

theorem next_of_getLast? (h : Circular l (a :: xs)) (hb : b ∈ (a :: xs).getLast?) : l.next b = a :=
  (h.closed b hb a (by simp)).1

theorem prev_concat (h : Circular l (a :: (xs ++ [b]))) : l.prev a = b :=
  h.prev_of_getLast? (by simp [List.getLast?_cons, List.getLast?_append])

theorem next_concat (h : Circular l (a :: (xs ++ [b]))) : l.next b = a :=
  h.next_of_getLast? (by simp [List.getLast?_cons, List.getLast?_append])

/-- The predecessor of a node, which for the head is the last node. -/
theorem prev_middle {A B : List α} {n : α} (h : Circular l (A ++ n :: B)) :
    some (l.prev n) = A.getLast?.or (n :: B).getLast? := by
  have hrot : Circular l (n :: (B ++ A)) := by simpa using h.rotate
  have hlast : (n :: (B ++ A)).getLast? = A.getLast?.or (n :: B).getLast? := by
    rw [← List.cons_append, List.getLast?_append]
  cases hx : (n :: (B ++ A)).getLast? with
  | none => simp at hx
  | some x => rw [← hlast, hx, hrot.prev_of_getLast? hx]

theorem next_singleton (h : Circular l [a]) : l.next a = a :=
  h.next_of_getLast? (by simp)

theorem prev_singleton (h : Circular l [a]) : l.prev a = a :=
  h.prev_of_getLast? (by simp)

theorem next_mem (h : Circular l (a :: xs)) : l.next a ∈ a :: xs := by
  cases xs with
  | nil => simp [h.next_singleton]
  | cons b t => simp [h.next_of_cons_cons]

theorem prev_mem (h : Circular l (a :: xs)) : l.prev a ∈ a :: xs := by
  rcases List.eq_nil_or_concat xs with rfl | ⟨t, b, rfl⟩
  · simp [h.prev_singleton]
  · rw [List.concat_eq_append] at h ⊢
    simp [h.prev_concat]

/-- A node is its own successor only in a one-element list. -/
theorem next_eq_self_iff (h : Circular l (a :: xs)) : l.next a = a ↔ xs = [] := by
  cases xs with
  | nil => simp [h.next_singleton]
  | cons b t =>
      have hne : b ≠ a := by
        intro hba
        have hnd := h.nodup
        simp [hba] at hnd
      simp [h.next_of_cons_cons, hne]

theorem prev_eq_self_iff (h : Circular l (a :: xs)) : l.prev a = a ↔ xs = [] := by
  rcases List.eq_nil_or_concat xs with rfl | ⟨t, b, rfl⟩
  · simp [h.prev_singleton]
  · have hne : b ≠ a := by
      intro hba
      have hnd := h.nodup
      simp [hba] at hnd
    simp only [List.concat_eq_append] at h
    simp [h.prev_concat, hne]

end Circular

/-! ## Reading a whole list -/

section Walk

variable [DecidableEq α]

/-- Follow `next` from a node until it leads back to `stop`. -/
def walk (l : Links α) (stop : α) : Nat → α → List α
  | 0, _ => []
  | fuel + 1, a => if l.next a = stop then [a] else a :: walk l stop fuel (l.next a)

/-- The nodes of the list held by `q`, at most `fuel` of them. -/
def toList (l : Links α) (q : Option α) (fuel : Nat) : List α :=
  match q with
  | none => []
  | some a => walk l a fuel a

theorem walk_eq {l : Links α} {stop : α} {rest : List α} :
    ∀ {a : α} {fuel : Nat}, (a :: rest).IsChain (Linked l) →
      (∀ z ∈ (a :: rest).getLast?, l.next z = stop) → stop ∉ rest →
      (a :: rest).length ≤ fuel → walk l stop fuel a = a :: rest := by
  induction rest with
  | nil =>
      intro a fuel _ hlast _ hfuel
      have hnext : l.next a = stop := hlast a (by simp)
      cases fuel with
      | zero => simp at hfuel
      | succ fuel => simp [walk, hnext]
  | cons b rest ih =>
      intro a fuel hchain hlast hstop hfuel
      rcases List.isChain_cons_cons.1 hchain with ⟨hab, hrest⟩
      have hne : l.next a ≠ stop := by
        intro hnext
        apply hstop
        simp [← hnext, hab.1]
      cases fuel with
      | zero => simp at hfuel
      | succ fuel =>
          have htail : walk l stop fuel b = b :: rest := by
            apply ih hrest
            · intro z hz
              exact hlast z (by simpa [List.getLast?_cons_cons] using hz)
            · intro hmem
              exact hstop (by simp [hmem])
            · simpa using hfuel
          have hbs : b ≠ stop := by simpa [hab.1] using hne
          simp [walk, hab.1, htail, hbs]

/-- With enough fuel `toList` is the sequence a head pointer holds. -/
theorem Reads.toList_eq {l : Links α} {q : Option α} {xs : List α} {fuel : Nat}
    (h : Reads l q xs) (hfuel : xs.length ≤ fuel) : toList l q fuel = xs := by
  cases xs with
  | nil =>
      have hq : q = none := by simpa using h.head
      simp [toList, hq]
  | cons a rest =>
      have hq : q = some a := by simpa using h.head
      simp only [toList, hq]
      apply walk_eq h.circular.chain
      · intro z hz
        exact h.circular.next_of_getLast? hz
      · exact (List.nodup_cons.1 h.circular.nodup).1
      · exact hfuel

end Walk

/-! ## Taking a node out -/

section Updates

variable [DecidableEq α]

/-- The neighbours of `n` are linked to each other; the fields of `n` itself stay. -/
def unlink (l : Links α) (n : α) : Links α :=
  (l.setNext (l.prev n) (l.next n)).setPrev (l.next n) (l.prev n)

/-- `n` goes between `a` and the successor of `a`. -/
def linkAfter (l : Links α) (n a : α) : Links α :=
  (((l.setPrev n a).setNext n (l.next a)).setPrev (l.next a) n).setNext a n

theorem unlink_next (l : Links α) (n x : α) :
    (unlink l n).next x = if x = l.prev n then l.next n else l.next x := by
  simp [unlink]

theorem unlink_prev (l : Links α) (n x : α) :
    (unlink l n).prev x = if x = l.next n then l.prev n else l.prev x := by
  simp [unlink]

namespace Circular

variable {l : Links α} {xs rest : List α} {a n : α}

theorem unlink (h : Circular l (n :: rest)) : Circular (unlink l n) rest := by
  cases rest with
  | nil => exact Circular.nil _
  | cons b t =>
      have hnd := h.nodup
      have hnext : l.next n = b := h.next_of_cons_cons
      -- The predecessor of `n` is the last of the remaining nodes.
      obtain ⟨z, hz⟩ : ∃ z, (b :: t).getLast? = some z := ⟨_, List.getLast?_cons⟩
      have hprev : l.prev n = z := h.prev_of_getLast? (by simp [List.getLast?_cons_cons, hz])
      have hinner : (b :: t).IsChain (Linked l) := (List.isChain_cons_cons.1 h.chain).2
      refine ⟨hnd.of_cons, ?_, ?_⟩
      · apply isChain_frame hinner
        · intro y hy
          have hyz : y ≠ z := by
            rintro rfl
            have hsplit : (b :: t).dropLast ++ [y] = b :: t :=
              List.dropLast_append_getLast? y hz
            have hnd' := hnd.of_cons
            rw [← hsplit] at hnd'
            exact (List.nodup_append.1 hnd').2.2 y hy y (by simp) rfl
          simp [unlink_next, hprev, hyz]
        · intro y hy
          have hyb : y ≠ b := by
            rintro rfl
            exact (List.nodup_cons.1 hnd.of_cons).1 (by simpa using hy)
          simp [unlink_prev, hnext, hyb]
      · intro y hy c hc
        obtain rfl : z = y := by simpa [hz] using hy
        obtain rfl : b = c := by simpa using hc
        exact ⟨by simp [unlink_next, hprev, hnext], by simp [unlink_prev, hprev, hnext]⟩

theorem unlink_sameOutside (h : Circular l (n :: rest)) :
    SameOutside l (CircularList.unlink l n) rest := by
  intro y hy
  cases rest with
  | nil =>
      simp only [unlink_next, unlink_prev, h.next_singleton, h.prev_singleton]
      constructor
      · split
        · rename_i hyn
          rw [hyn, h.next_singleton]
        · rfl
      · split
        · rename_i hyn
          rw [hyn, h.prev_singleton]
        · rfl
  | cons b t =>
      have hnext : l.next n = b := h.next_of_cons_cons
      have hprev : l.prev n ∈ b :: t := by
        have hmem := h.prev_mem
        rcases List.mem_cons.1 hmem with hself | hrest
        · exact absurd (h.prev_eq_self_iff.1 hself) (by simp)
        · exact hrest
      have hyb : y ≠ b := fun hyb => hy (by simp [hyb])
      have hyp : y ≠ l.prev n := fun hyp => hy (hyp ▸ hprev)
      simp [unlink_next, unlink_prev, hnext, hyb, hyp]

/-! ## Putting a node in -/

theorem linkAfter_singleton (h : Circular l [a]) (hna : n ≠ a) :
    Circular (linkAfter l n a) [a, n] := by
  refine ⟨by simp [Ne.symm hna], ?_, ?_⟩
  · refine List.isChain_cons_cons.2 ⟨⟨?_, ?_⟩, List.IsChain.singleton n⟩
    · simp [CircularList.linkAfter]
    · simp [CircularList.linkAfter, h.next_singleton, hna]
  · intro y hy c hc
    obtain rfl : n = y := by simpa using hy
    obtain rfl : a = c := by simpa using hc
    constructor
    · simp [CircularList.linkAfter, h.next_singleton, hna]
    · simp [CircularList.linkAfter, h.next_singleton]

/-- Between two nodes: the links behind `b` and the one that closes the circle stay. -/
theorem linkAfter_cons {b : α} {t : List α} (h : Circular l (a :: b :: t)) (hn : n ∉ a :: b :: t) :
    Circular (linkAfter l n a) (a :: n :: b :: t) := by
  have hna : n ≠ a := fun hna => hn (by simp [hna])
  have hnb : n ≠ b := fun hnb => hn (by simp [hnb])
  have hab : a ≠ b := by
    rintro rfl
    exact (List.nodup_cons.1 h.nodup).1 (by simp)
  have hnext : l.next a = b := h.next_of_cons_cons
  have hinner : (b :: t).IsChain (Linked l) := (List.isChain_cons_cons.1 h.chain).2
  have hother : ∀ y ∈ b :: t, y ≠ a ∧ y ≠ n := by
    intro y hmem
    refine ⟨?_, ?_⟩
    · exact fun hya => (List.nodup_cons.1 h.nodup).1 (hya ▸ hmem)
    · exact fun hyn => hn (List.mem_cons_of_mem _ (hyn ▸ hmem))
  refine ⟨?_, ?_, ?_⟩
  · have hnd := h.nodup
    simp only [List.mem_cons, not_or] at hn
    simp only [List.nodup_cons, List.mem_cons, not_or] at hnd ⊢
    exact ⟨⟨Ne.symm hna, hnd.1⟩, hn.2, hnd.2⟩
  · refine List.isChain_cons_cons.2 ⟨⟨?_, ?_⟩, List.isChain_cons_cons.2 ⟨⟨?_, ?_⟩, ?_⟩⟩
    · simp [CircularList.linkAfter]
    · simp [CircularList.linkAfter, hnext, hnb]
    · simp [CircularList.linkAfter, hnext, hna]
    · simp [CircularList.linkAfter, hnext]
    · apply isChain_frame hinner
      · intro y hy
        rcases hother y (List.mem_of_mem_dropLast hy) with ⟨hya, hyn⟩
        simp [CircularList.linkAfter, hya, hyn]
      · intro y hy
        have hmem : y ∈ t := by simpa using hy
        have hyb : y ≠ b := fun hyb => (List.nodup_cons.1 h.nodup.of_cons).1 (hyb ▸ hmem)
        have hyn := (hother y (List.mem_cons_of_mem _ hmem)).2
        simp [CircularList.linkAfter, hnext, hyb, hyn]
  · intro y hy c hc
    obtain rfl : a = c := by simpa using hc
    have hlast : y ∈ (a :: b :: t).getLast? := by
      simpa [List.getLast?_cons_cons] using hy
    have hlink := h.closed y hlast a (by simp)
    have hmem : y ∈ b :: t := List.mem_of_getLast? (by simpa [List.getLast?_cons_cons] using hy)
    rcases hother y hmem with ⟨hya, hyn⟩
    constructor
    · simp [CircularList.linkAfter, hya, hyn, hlink.1]
    · simp [CircularList.linkAfter, hnext, hab, Ne.symm hna, hlink.2]

theorem linkAfter (h : Circular l (a :: rest)) (hn : n ∉ a :: rest) :
    Circular (linkAfter l n a) (a :: n :: rest) := by
  cases rest with
  | nil => exact h.linkAfter_singleton (by simpa using hn)
  | cons b t => exact h.linkAfter_cons hn

theorem linkAfter_sameOutside (h : Circular l (a :: rest)) :
    SameOutside l (CircularList.linkAfter l n a) (n :: a :: rest) := by
  intro y hy
  simp only [List.mem_cons, not_or] at hy
  have hynext : y ≠ l.next a := by
    intro hynext
    have hmem := h.next_mem
    rw [← hynext] at hmem
    simp [hy.2.1, hy.2.2] at hmem
  simp [CircularList.linkAfter, hy.1, hy.2.1, hynext]

end Circular

end Updates

end CircularList
end Shambles
