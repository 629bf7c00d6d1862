import Mathlib.Tactic
import Mathlib.Data.List.Nodup

/-!
# RankedList — lists ordered by rank, with an index of their classes

A list is ranked when `rank` never increases along it, so the elements of one rank, a class, stand
together.  `index` lists for every rank the last element of its class.  Moving an element to
another rank means taking it out and placing it right behind the last element of at least that
rank, the `anchor`; the index then changes in two entries only.
-/

namespace Shambles
namespace RankedList

variable {α : Type*}

def Ranked (rank : α → Nat) (L : List α) : Prop :=
  L.Pairwise (fun a b => rank b ≤ rank a)

/-- The last element of rank `k`. -/
def lastOf (rank : α → Nat) (k : Nat) (L : List α) : Option α :=
  (L.filter (fun a => rank a = k)).getLast?

def index (rank : α → Nat) (m : Nat) (L : List α) : List (Option α) :=
  (List.range m).map (fun k => lastOf rank k L)

def above (rank : α → Nat) (k : Nat) (R : List α) : List α :=
  R.filter (fun a => k ≤ rank a)

def under (rank : α → Nat) (k : Nat) (R : List α) : List α :=
  R.filter (fun a => rank a < k)

/-- The element behind which a new element of rank `k` belongs. -/
def anchor (rank : α → Nat) (k : Nat) (R : List α) : Option α :=
  (above rank k R).getLast?

def place (rank : α → Nat) (k : Nat) (n : α) (R : List α) : List α :=
  above rank k R ++ n :: under rank k R

/-! ## The last element of a class -/

section LastOf

variable {rank rank' : α → Nat} {k : Nat} {L M A B : List α} {n t : α}

theorem lastOf_append (rank : α → Nat) (k : Nat) (L M : List α) :
    lastOf rank k (L ++ M) = (lastOf rank k M).or (lastOf rank k L) := by
  simp [lastOf, List.getLast?_append]

theorem lastOf_cons (rank : α → Nat) (k : Nat) (a : α) (L : List α) :
    lastOf rank k (a :: L) = (lastOf rank k L).or (if rank a = k then some a else none) := by
  have hsplit := lastOf_append rank k [a] L
  by_cases h : rank a = k
  · simpa [lastOf, h] using hsplit
  · simp [lastOf, h]

theorem lastOf_eq_none_iff : lastOf rank k L = none ↔ ∀ a ∈ L, rank a ≠ k := by
  simp [lastOf]

theorem mem_of_lastOf (h : lastOf rank k L = some t) : t ∈ L ∧ rank t = k := by
  have hmem := List.mem_of_getLast? h
  simpa using hmem

theorem lastOf_congr (h : ∀ a ∈ L, rank a = rank' a) : lastOf rank k L = lastOf rank' k L := by
  unfold lastOf
  refine congrArg List.getLast? (List.filter_congr ?_)
  intro a ha
  rw [h a ha]

/-- An element is the last of its class when no element of its rank follows. -/
theorem lastOf_middle (hnd : (A ++ n :: B).Nodup) :
    lastOf rank (rank n) (A ++ n :: B) = some n ↔ ∀ b ∈ B, rank b ≠ rank n := by
  have hnB : n ∉ B := (List.nodup_cons.1 (List.nodup_append'.1 hnd).2.1).1
  rw [lastOf_append, lastOf_cons, ← lastOf_eq_none_iff]
  cases hB : lastOf rank (rank n) B with
  | none => simp
  | some t =>
      have htn : t ≠ n := fun htn => hnB (htn ▸ (mem_of_lastOf hB).1)
      simpa using htn

/-- Taking an element out matters only to its own class, and there only if it was the last. -/
theorem lastOf_remove (hne : lastOf rank k (A ++ n :: B) ≠ some n ∨ rank n ≠ k) :
    lastOf rank k (A ++ B) = lastOf rank k (A ++ n :: B) := by
  simp only [lastOf_append, lastOf_cons] at hne ⊢
  cases hB : lastOf rank k B with
  | some t => simp
  | none =>
      have hnk : rank n ≠ k := by
        rcases hne with hne | hnk
        · intro hnk
          simp [hB, hnk] at hne
        · exact hnk
      simp [hnk]

theorem mem_of_anchor (h : anchor rank k L = some t) : t ∈ L ∧ k ≤ rank t := by
  have hmem := List.mem_of_getLast? h
  simpa [above] using hmem

theorem anchor_eq_none_iff : anchor rank k L = none ↔ ∀ a ∈ L, rank a < k := by
  simp [anchor, above]

end LastOf

/-! ## Ranked lists -/

namespace Ranked

variable {rank : α → Nat} {k : Nat} {L R A B : List α} {n t : α}

theorem above_append_under (h : Ranked rank R) (k : Nat) :
    above rank k R ++ under rank k R = R := by
  induction R with
  | nil => rfl
  | cons a R ih =>
      rcases List.pairwise_cons.1 h with ⟨ha, hR⟩
      by_cases hk : k ≤ rank a
      · have hlt : ¬ rank a < k := by omega
        simpa [above, under, hk, hlt] using ih hR
      · -- Everything behind `a` is below `k` as well.
        have hlt : rank a < k := by omega
        have hnone : above rank k R = [] := by
          refine List.filter_eq_nil_iff.2 ?_
          intro b hb
          have := ha b hb
          simp only [decide_eq_true_eq]
          omega
        have hall : under rank k R = R := by simpa [hnone] using ih hR
        have habove : above rank k (a :: R) = [] := by
          simpa [above, hlt] using hnone
        have hunder : under rank k (a :: R) = a :: R := by
          simpa [under, hlt] using hall
        rw [habove, hunder, List.nil_append]

theorem append_iff {H T : List α} :
    Ranked rank (H ++ T) ↔
      Ranked rank H ∧ Ranked rank T ∧ ∀ a ∈ H, ∀ b ∈ T, rank b ≤ rank a :=
  List.pairwise_append

theorem congr {rank' : α → Nat} (h : Ranked rank L) (heq : ∀ a ∈ L, rank' a = rank a) :
    Ranked rank' L := by
  refine List.Pairwise.imp_of_mem ?_ h
  intro a b ha hb hab
  rw [heq a ha, heq b hb]
  exact hab

/-- Elements of the lowest rank go behind all others. -/
theorem append_zero {N : List α} (h : Ranked rank L) (hN : ∀ a ∈ N, rank a = 0) :
    Ranked rank (L ++ N) := by
  refine append_iff.2 ⟨h, ?_, ?_⟩
  · refine List.pairwise_of_forall_mem_list ?_
    intro a ha b hb
    rw [hN a ha, hN b hb]
  · intro a _ b hb
    rw [hN b hb]
    exact Nat.zero_le _

theorem split (h : Ranked rank (A ++ n :: B)) :
    (∀ a ∈ A, rank n ≤ rank a) ∧ ∀ b ∈ B, rank b ≤ rank n := by
  rcases append_iff.1 h with ⟨_, hB, hAB⟩
  exact ⟨fun a ha => hAB a ha n (by simp), (List.pairwise_cons.1 hB).1⟩

theorem remove (h : Ranked rank (A ++ n :: B)) : Ranked rank (A ++ B) :=
  h.sublist (List.Sublist.append_left (List.sublist_cons_self n B) A)

/-- In front of its class' last element a ranked list ends in that class or above it. -/
theorem lastOf_of_le (h : Ranked rank A) (hk : ∀ a ∈ A, k ≤ rank a) :
    lastOf rank k A = A.getLast?.filter (fun a => rank a = k) := by
  rcases List.eq_nil_or_concat' A with rfl | ⟨A', p, rfl⟩
  · simp [lastOf]
  · rw [lastOf_append, lastOf_cons, List.getLast?_concat]
    by_cases hp : rank p = k
    · simp [lastOf, Option.filter, hp]
    · -- All of `A'` ranks at least as high as `p`.
      have hnone : lastOf rank k A' = none := by
        refine lastOf_eq_none_iff.2 ?_
        intro a ha hak
        have hpa : rank p ≤ rank a := (append_iff.1 h).2.2 a ha p (by simp)
        have hkp : k ≤ rank p := hk p (by simp)
        omega
      rw [hnone]
      simp [lastOf, Option.filter, hp]

/-- The class whose last element is taken out ends with the element before it, if that is one of
its own. -/
theorem lastOf_remove_last (h : Ranked rank (A ++ n :: B))
    (hB : ∀ b ∈ B, rank b ≠ rank n) :
    lastOf rank (rank n) (A ++ B) = A.getLast?.filter (fun a => rank a = rank n) := by
  have hA : Ranked rank A := (append_iff.1 h).1
  rw [lastOf_append, lastOf_eq_none_iff.2 hB, Option.none_or]
  exact hA.lastOf_of_le h.split.1

/-- The anchor is the last of the lowest class that is high enough. -/
theorem anchor_eq (h : Ranked rank R) (k : Nat) :
    anchor rank k R = (lastOf rank k R).or (anchor rank (k + 1) R) := by
  have hclasses : above rank k R = above rank (k + 1) R ++ R.filter (fun a => rank a = k) := by
    have hsplit := h.above_append_under (k + 1)
    calc above rank k R
        = above rank k (above rank (k + 1) R ++ under rank (k + 1) R) := by rw [hsplit]
      _ = above rank (k + 1) R ++ R.filter (fun a => rank a = k) := by
          simp only [above, under, List.filter_append, List.filter_filter]
          congr 1
          · refine List.filter_congr ?_
            intro a _
            rw [← Bool.decide_and]
            exact decide_eq_decide.2 (by omega)
          · refine List.filter_congr ?_
            intro a _
            rw [← Bool.decide_and]
            exact decide_eq_decide.2 (by omega)
  simp [anchor, hclasses, lastOf, List.getLast?_append]

end Ranked

/-! ## Placing an element -/

section Place

variable {rank : α → Nat} {k : Nat} {R H T : List α} {n t : α}

theorem place_append (hH : ∀ a ∈ H, k ≤ rank a) (hT : ∀ a ∈ T, rank a < k) :
    place rank k n (H ++ T) = H ++ n :: T := by
  have habove : above rank k (H ++ T) = H := by
    rw [above, List.filter_append, List.filter_eq_self.2 (by simpa using hH),
      List.filter_eq_nil_iff.2 (by simpa using hT), List.append_nil]
  have hunder : under rank k (H ++ T) = T := by
    rw [under, List.filter_append, List.filter_eq_nil_iff.2 (by simpa using hH),
      List.filter_eq_self.2 (by simpa using hT), List.nil_append]
  rw [place, habove, hunder]

theorem place_of_anchor_none (h : Ranked rank R) (ha : anchor rank k R = none) :
    place rank k n R = n :: R := by
  have hnil : above rank k R = [] := by simpa [anchor] using ha
  have hall : under rank k R = R := by simpa [hnil] using h.above_append_under k
  rw [place, hnil, hall, List.nil_append]

theorem place_of_anchor_some (h : Ranked rank R) (ha : anchor rank k R = some t) :
    ∃ U V, R = U ++ t :: V ∧ place rank k n R = U ++ t :: n :: V ∧ ∀ b ∈ V, rank b < k := by
  rcases List.getLast?_eq_some_iff.1 ha with ⟨U, hU⟩
  have hsplit := h.above_append_under k
  refine ⟨U, under rank k R, ?_, ?_, ?_⟩
  · simpa [hU] using hsplit.symm
  · simp [place, hU]
  · intro b hb
    simpa using (List.mem_filter.1 hb).2

theorem perm_place (h : Ranked rank R) (k : Nat) (n : α) : (place rank k n R).Perm (n :: R) := by
  have hperm : (place rank k n R).Perm (n :: (above rank k R ++ under rank k R)) :=
    List.perm_middle
  rwa [h.above_append_under k] at hperm

variable [DecidableEq α]

theorem Ranked.place (h : Ranked rank R) (hn : n ∉ R) :
    Ranked (Function.update rank n k) (place rank k n R) := by
  have hsame : ∀ a ∈ R, Function.update rank n k a = rank a := by
    intro a ha
    exact Function.update_of_ne (ne_of_mem_of_not_mem ha hn) _ _
  have hR : Ranked (Function.update rank n k) R := h.congr hsame
  rw [← h.above_append_under k] at hR
  rcases Ranked.append_iff.1 hR with ⟨habove, hunder, hcross⟩
  refine Ranked.append_iff.2 ⟨habove, List.pairwise_cons.2 ⟨?_, hunder⟩, ?_⟩
  · intro b hb
    have hb' := List.mem_filter.1 hb
    rw [hsame b hb'.1, Function.update_self]
    exact (of_decide_eq_true hb'.2).le
  · intro a ha b hb
    have ha' := List.mem_filter.1 ha
    rcases List.mem_cons.1 hb with rfl | hb
    · rw [hsame a ha'.1, Function.update_self]
      exact of_decide_eq_true ha'.2
    · exact hcross a ha b hb

theorem lastOf_place (h : Ranked rank R) (hn : n ∉ R) (j : Nat) :
    lastOf (Function.update rank n k) j (RankedList.place rank k n R) =
      if j = k then some n else lastOf rank j R := by
  have hsame : ∀ M : List α, (∀ a ∈ M, a ∈ R) →
      lastOf (Function.update rank n k) j M = lastOf rank j M := by
    intro M hM
    refine lastOf_congr ?_
    intro a ha
    exact Function.update_of_ne (ne_of_mem_of_not_mem (hM a ha) hn) _ _
  have habove := hsame (above rank k R) (fun a ha => (List.mem_filter.1 ha).1)
  have hunder := hsame (under rank k R) (fun a ha => (List.mem_filter.1 ha).1)
  rw [RankedList.place, lastOf_append, lastOf_cons, habove, hunder, Function.update_self]
  by_cases hj : j = k
  · -- Nothing below rank `k` can follow `n` in its new class.
    have hnone : lastOf rank j (under rank k R) = none := by
      refine lastOf_eq_none_iff.2 ?_
      intro a ha hak
      have hlt : rank a < k := by simpa using (List.mem_filter.1 ha).2
      omega
    rw [hnone, if_pos hj, if_pos hj.symm]
    simp
  · have hother : ¬ k = j := fun hkj => hj hkj.symm
    rw [if_neg hother, if_neg hj, Option.or_none, ← lastOf_append, h.above_append_under k]

end Place

/-! ## The index -/

section Index

variable {rank : α → Nat} {k m : Nat} {L R A B : List α} {n : α}

theorem length_index (rank : α → Nat) (m : Nat) (L : List α) : (index rank m L).length = m := by
  simp [index]

theorem getElem?_index (hk : k < m) : (index rank m L)[k]? = some (lastOf rank k L) := by
  simp [index, hk]

theorem mem_of_mem_index (h : some n ∈ index rank m L) : n ∈ L := by
  rcases List.mem_map.1 h with ⟨k, _, hlast⟩
  exact (mem_of_lastOf hlast).1

/-- Taking `n` out changes the entry of its own rank only. -/
theorem index_remove (rank : α → Nat) (m : Nat) (A B : List α) (n : α) :
    (index rank m (A ++ n :: B)).set (rank n) (lastOf rank (rank n) (A ++ B)) =
      index rank m (A ++ B) := by
  refine List.ext_getElem? ?_
  intro j
  by_cases hj : j < m
  · by_cases hrank : rank n = j
    · subst hrank
      rw [List.getElem?_set_self (by simpa [length_index] using hj), getElem?_index hj]
    · rw [List.getElem?_set_ne hrank, getElem?_index hj, getElem?_index hj,
        lastOf_remove (A := A) (B := B) (n := n) (Or.inr hrank)]
  · simp [index, hj]

theorem index_place [DecidableEq α] (h : Ranked rank R) (hn : n ∉ R) (hk : k < m) :
    (index rank m R).set k (some n) =
      index (Function.update rank n k) m (place rank k n R) := by
  refine List.ext_getElem? ?_
  intro j
  by_cases hj : j < m
  · rw [getElem?_index hj, lastOf_place h hn]
    by_cases hjk : j = k
    · subst hjk
      rw [List.getElem?_set_self (by simpa [length_index] using hj), if_pos rfl]
    · rw [List.getElem?_set_ne (fun hkj => hjk hkj.symm), getElem?_index hj, if_neg hjk]
  · simp [index, hj]

theorem index_congr {rank' : α → Nat} (h : ∀ a ∈ L, rank a = rank' a) :
    index rank m L = index rank' m L := by
  unfold index
  refine List.map_congr_left ?_
  intro j _
  exact lastOf_congr h

/-- Appending elements of one rank `k`, none of which was there before, changes entry `k`. -/
theorem index_append {N : List α} {z : α} (hN : ∀ a ∈ N, rank a = k)
    (hlast : N.getLast? = some z) :
    (index rank m L).set k (some z) = index rank m (L ++ N) := by
  have hclass : ∀ j, lastOf rank j N = if j = k then some z else none := by
    intro j
    by_cases hj : j = k
    · have hall : N.filter (fun a => rank a = j) = N := by
        refine List.filter_eq_self.2 ?_
        intro a ha
        simp [hN a ha, hj]
      rw [lastOf, hall, hlast, if_pos hj]
    · rw [if_neg hj]
      refine lastOf_eq_none_iff.2 ?_
      intro a ha haj
      exact hj (haj.symm.trans (hN a ha))
  refine List.ext_getElem? ?_
  intro j
  by_cases hj : j < m
  · rw [getElem?_index hj, lastOf_append, hclass]
    by_cases hjk : j = k
    · subst hjk
      rw [List.getElem?_set_self (by simpa [length_index] using hj), if_pos rfl, Option.some_or]
    · rw [List.getElem?_set_ne (fun hkj => hjk hkj.symm), getElem?_index hj, if_neg hjk,
        Option.none_or]
  · simp [index, hj]

end Index

end RankedList
end Shambles
