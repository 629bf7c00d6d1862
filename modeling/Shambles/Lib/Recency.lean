import Mathlib.Data.List.Basic
import Mathlib.Tactic

/-!
# Recency — lists that move what is touched to the front

A list to whose end new elements are appended, from which elements are removed and whose elements move
to the front when they are touched.  Beside it, `History` remembers for every element when it was
touched last and in which order the untouched ones came.

The list is the history, sorted (`Sorted`): the position of an element is the number of elements that
are `Ahead` of it, so what stands in front of the list is known without the list.
-/

namespace Shambles
namespace Recency

variable {α : Type*}

inductive Op (α : Type*)
  | append (xs : List α)
  | remove (gone : α → Bool)
  | touch (x : α)
  | idle

def Op.apply [DecidableEq α] (L : List α) : Op α → List α
  | .append xs => L ++ xs
  | .remove gone => L.filter fun x => !gone x
  | .touch x => x :: L.erase x
  | .idle => L

/-- What is appended is new. -/
def Op.Fresh (L : List α) : Op α → Prop
  | .append xs => xs.Nodup ∧ ∀ x ∈ xs, x ∉ L
  | _ => True

/-! ## Histories -/

structure History (α : Type*) where
  clock : Nat
  /-- When an element was touched last since it was appended. -/
  touched : α → Option Nat
  /-- When it was appended. -/
  born : α → Nat

namespace History

def start : History α :=
  ⟨0, fun _ => none, fun _ => 0⟩

def step [DecidableEq α] (H : History α) : Op α → History α
  | .append xs =>
      { clock := H.clock + xs.length
        touched := fun x => if x ∈ xs then none else H.touched x
        born := fun x => if x ∈ xs then H.clock + xs.idxOf x else H.born x }
  | .touch x =>
      { H with
        clock := H.clock + 1
        touched := Function.update H.touched x (some H.clock) }
  | .remove _ => H
  | .idle => H

/-- The order of two entries: what was touched comes before what was not, the later touch first, and
among untouched ones the older one first. -/
def Earlier : Option Nat → Nat → Option Nat → Nat → Prop
  | some t, _, some u, _ => u < t
  | some _, _, none, _ => True
  | none, _, some _, _ => False
  | none, b, none, b' => b < b'

instance : (t : Option Nat) → (b : Nat) → (u : Option Nat) → (b' : Nat) → Decidable (Earlier t b u b')
  | some t, _, some u, _ => inferInstanceAs (Decidable (u < t))
  | some _, _, none, _ => isTrue trivial
  | none, _, some _, _ => isFalse id
  | none, b, none, b' => inferInstanceAs (Decidable (b < b'))

/-- `y` was touched after `x`, or `x` never was; among untouched elements the older one is ahead. -/
def Ahead (H : History α) (y x : α) : Prop :=
  Earlier (H.touched y) (H.born y) (H.touched x) (H.born x)

instance (H : History α) (y x : α) : Decidable (H.Ahead y x) :=
  inferInstanceAs (Decidable (Earlier _ _ _ _))

section

variable {t u b b' : Nat}

@[simp] theorem earlier_touched : Earlier (some t) b (some u) b' ↔ u < t :=
  Iff.rfl

@[simp] theorem earlier_untouched_right : Earlier (some t) b none b' :=
  trivial

@[simp] theorem earlier_untouched : Earlier none b none b' ↔ b < b' :=
  Iff.rfl

end

theorem Earlier.asymm {t u : Option Nat} {b b' : Nat} (h : Earlier t b u b') :
    ¬ Earlier u b' t b := by
  cases t with
  | none =>
      cases u with
      | none => exact Nat.lt_asymm h
      | some u => exact h.elim
  | some t =>
      cases u with
      | none => exact id
      | some u => exact Nat.lt_asymm h

variable {H H' : History α} {x y : α}

theorem Ahead.asymm (h : H.Ahead y x) : ¬ H.Ahead x y :=
  Earlier.asymm h

/-- Only the entries of the two elements matter. -/
theorem Ahead.congr (h : H.Ahead y x) (hy : H'.touched y = H.touched y)
    (hx : H'.touched x = H.touched x) (hby : H'.born y = H.born y) (hbx : H'.born x = H.born x) :
    H'.Ahead y x := by
  unfold Ahead at h ⊢
  rw [hy, hx, hby, hbx]
  exact h

end History

/-! ## The list is sorted by its history -/

structure Sorted (H : History α) (L : List α) : Prop where
  pairwise : L.Pairwise H.Ahead
  touched_lt : ∀ x ∈ L, ∀ t, H.touched x = some t → t < H.clock
  born_lt : ∀ x ∈ L, H.born x < H.clock

namespace Sorted

variable {H : History α} {L : List α} {x : α}

theorem nil : Sorted (History.start : History α) [] :=
  ⟨List.Pairwise.nil, by simp, by simp⟩

theorem nodup (h : Sorted H L) : L.Nodup := by
  refine h.pairwise.imp ?_
  rintro y x hyx rfl
  exact hyx.asymm hyx

theorem sublist (h : Sorted H L) {L' : List α} (hsub : L'.Sublist L) : Sorted H L' :=
  ⟨h.pairwise.sublist hsub, fun x hx => h.touched_lt x (hsub.subset hx),
    fun x hx => h.born_lt x (hsub.subset hx)⟩

theorem append [DecidableEq α] (h : Sorted H L) {xs : List α} (hnodup : xs.Nodup) (hfresh : ∀ x ∈ xs, x ∉ L) :
    Sorted (H.step (.append xs)) (L ++ xs) := by
  have hold : ∀ x ∈ L, x ∉ xs := fun x hx hxs => hfresh x hxs hx
  refine ⟨List.pairwise_append.2 ⟨?_, ?_, ?_⟩, ?_, ?_⟩
  · refine h.pairwise.imp_of_mem ?_
    intro y x hy hx hyx
    exact hyx.congr (by simp [History.step, hold y hy]) (by simp [History.step, hold x hx])
      (by simp [History.step, hold y hy]) (by simp [History.step, hold x hx])
  · -- the new elements are untouched and numbered in their order
    refine List.pairwise_iff_getElem.2 ?_
    intro i j hi hj hij
    simp [History.Ahead, History.step, hnodup.idxOf_getElem, hij]
  · intro y hy x hx
    have hborn := h.born_lt y hy
    unfold History.Ahead
    cases ht : (H.step (.append xs)).touched y with
    | none =>
        simp only [History.step, hx, if_true, hold y hy, if_false, History.earlier_untouched]
        omega
    | some t => simp [History.step, hx]
  · intro x hx t ht
    rcases List.mem_append.1 hx with hx | hx
    · have hlt := h.touched_lt x hx t (by simpa [History.step, hold x hx] using ht)
      simp only [History.step]
      omega
    · simp [History.step, hx] at ht
  · intro x hx
    rcases List.mem_append.1 hx with hx | hx
    · have hlt := h.born_lt x hx
      simp only [History.step, hold x hx, if_false]
      omega
    · have hlt := List.idxOf_lt_length_of_mem hx
      simp only [History.step, hx, if_true]
      omega

theorem touch [DecidableEq α] (h : Sorted H L) (hx : x ∈ L) : Sorted (H.step (.touch x)) (x :: L.erase x) := by
  have hmem : ∀ y ∈ L.erase x, y ≠ x ∧ y ∈ L := fun y hy => (h.nodup.mem_erase_iff).1 hy
  refine ⟨List.pairwise_cons.2 ⟨?_, ?_⟩, ?_, ?_⟩
  · -- nothing else has been touched as late as now
    intro y hy
    rcases hmem y hy with ⟨hne, hy⟩
    unfold History.Ahead
    cases ht : H.touched y with
    | none => simp [History.step, hne, ht]
    | some t =>
        have hlt := h.touched_lt y hy t ht
        simpa [History.step, hne, ht] using hlt
  · refine (h.pairwise.sublist List.erase_sublist).imp_of_mem ?_
    intro y z hy hz hyz
    exact hyz.congr (by simp [History.step, (hmem y hy).1]) (by simp [History.step, (hmem z hz).1])
      rfl rfl
  · intro y hy t ht
    by_cases hne : y = x
    · have hnow : H.clock = t := by simpa [History.step, hne] using ht
      simp only [History.step]
      omega
    · have hy' := (hmem y ((List.mem_cons.1 hy).resolve_left hne)).2
      have hlt := h.touched_lt y hy' t (by simpa [History.step, hne] using ht)
      simp only [History.step]
      omega
  · intro y hy
    have hy' : y ∈ L := by
      rcases List.mem_cons.1 hy with rfl | hy
      · exact hx
      · exact (hmem y hy).2
    have hlt := h.born_lt y hy'
    simp only [History.step]
    omega

/-- Every operation keeps the list sorted, if only elements of it are touched. -/
theorem step [DecidableEq α] (h : Sorted H L) {op : Op α} (hfresh : op.Fresh L)
    (htouch : ∀ x, op = .touch x → x ∈ L) :
    Sorted (H.step op) (op.apply L) := by
  cases op with
  | append xs => exact h.append hfresh.1 hfresh.2
  | remove gone => exact h.sublist List.filter_sublist
  | touch x => exact h.touch (htouch x rfl)
  | idle => exact h

/-- Those ahead of an element are those before it. -/
theorem filter_ahead (h : Sorted H L) {A B : List α} (hL : L = A ++ x :: B) :
    L.filter (fun y => H.Ahead y x) = A := by
  subst hL
  rcases List.pairwise_append.1 h.pairwise with ⟨_, hxB, hcross⟩
  have hA : A.filter (fun y => H.Ahead y x) = A := by
    refine List.filter_eq_self.2 ?_
    intro y hy
    exact decide_eq_true (hcross y hy x List.mem_cons_self)
  have hB : (x :: B).filter (fun y => H.Ahead y x) = [] := by
    refine List.filter_eq_nil_iff.2 ?_
    intro y hy hyx
    have hyx' : H.Ahead y x := of_decide_eq_true hyx
    rcases List.mem_cons.1 hy with rfl | hy
    · exact hyx'.asymm hyx'
    · exact hyx'.asymm ((List.pairwise_cons.1 hxB).1 y hy)
  rw [List.filter_append, hA, hB, List.append_nil]

/-- An element is among the first `C` exactly if fewer than `C` are ahead of it. -/
theorem mem_take_iff (h : Sorted H L) (hx : x ∈ L) (C : Nat) :
    x ∈ L.take C ↔ L.countP (fun y => H.Ahead y x) < C := by
  rcases List.append_of_mem hx with ⟨A, B, hL⟩
  have hcount : L.countP (fun y => H.Ahead y x) = A.length := by
    rw [List.countP_eq_length_filter, h.filter_ahead hL]
  have hnotMem : x ∉ A := by
    have hnodup := h.nodup
    rw [hL] at hnodup
    intro hxA
    exact (List.nodup_append.1 hnodup).2.2 x hxA x List.mem_cons_self rfl
  rw [hcount, hL, List.take_append, List.mem_append]
  constructor
  · rintro (hA | hB)
    · exact absurd (List.mem_of_mem_take hA) hnotMem
    · by_contra hle
      simp [Nat.sub_eq_zero_of_le (not_lt.1 hle)] at hB
  · intro hlt
    refine Or.inr ?_
    obtain ⟨k, hk⟩ : ∃ k, C - A.length = k + 1 := ⟨C - A.length - 1, by omega⟩
    rw [hk, List.take_succ_cons]
    exact List.mem_cons_self

end Sorted

/-- Taking an element out does not show in front of it. -/
theorem take_erase_of_notMem [DecidableEq α] {L : List α} {x : α} {k : Nat} (hx : x ∉ L.take k) :
    (L.erase x).take k = L.take k := by
  induction L generalizing k with
  | nil => rfl
  | cons y L ih =>
      cases k with
      | zero => rfl
      | succ k =>
          rw [List.take_succ_cons, List.mem_cons, not_or] at hx
          rw [List.erase_cons_tail (by simpa using Ne.symm hx.1), List.take_succ_cons,
            List.take_succ_cons, ih hx.2]

end Recency
end Shambles
