import Mathlib.Data.Finset.Card
import Mathlib.Tactic
import Shambles.Lib.Recency

/-!
# Paging — move-to-front against a placement that knows the future

A list in order of recency whose first `C` elements are close; every touch of an element that is not
close is a miss.  A schedule is any other way to keep as many elements close: it pays one for every
touch of an element that is far, and one for every element it fetches on other occasions.

`misses_le_card`: as long as no more than `C` elements are touched, each of them is missed once at
most.

`misses_le`: whatever the schedule knows about the touches to come, the list has at most `C + 1` times
as many misses as the schedule pays, up to a potential that vanishes when both start alike.  The
potential weighs the close elements the schedule does not hold, the most recent ones most.
-/

namespace Shambles
namespace Recency

variable {α : Type*} [DecidableEq α]

/-- The misses of the list over a sequence of touches. -/
def misses (C : Nat) : List α → List α → Nat
  | _, [] => 0
  | L, x :: xs => (if x ∈ L.take C then 0 else 1) + misses C (x :: L.erase x) xs

/-- The list after a sequence of touches. -/
def touchAll (L xs : List α) : List α :=
  xs.foldl (fun L x => x :: L.erase x) L

theorem misses_snoc (C : Nat) (L xs : List α) (x : α) :
    misses C L (xs ++ [x]) =
      misses C L xs + if x ∈ (touchAll L xs).take C then 0 else 1 := by
  induction xs generalizing L with
  | nil => rw [List.nil_append, misses, misses, misses, Nat.add_comm]; rfl
  | cons y xs ih =>
      rw [List.cons_append, misses, ih, misses, Nat.add_assoc]
      rfl

theorem touchAll_snoc (L xs : List α) (x : α) :
    touchAll L (xs ++ [x]) = x :: (touchAll L xs).erase x := by
  simp [touchAll]

/-- Touching elements of the list does not change which ones it has. -/
theorem mem_touchAll {L xs : List α} (hxs : ∀ x ∈ xs, x ∈ L) {y : α} : y ∈ touchAll L xs ↔ y ∈ L := by
  induction xs using List.reverseRecOn with
  | nil => rfl
  | append_singleton xs x ih =>
      have ih := ih fun z hz => hxs z (List.mem_append_left _ hz)
      rw [touchAll_snoc, ← ih]
      by_cases hy : y = x
      · have hx : x ∈ touchAll L xs := hy ▸ ih.2 (hy ▸ hxs x (by simp))
        simp [hy, hx]
      · simp [hy, List.mem_erase_of_ne hy]

/-! ## Few elements -/

theorem toFinset_snoc (xs : List α) (x : α) : (xs ++ [x]).toFinset = insert x xs.toFinset := by
  ext y
  simp

/-- What was touched is in front of everything else. -/
theorem exists_front (L xs : List α) :
    ∃ D R, touchAll L xs = D ++ R ∧ D.Nodup ∧ D.toFinset = xs.toFinset := by
  induction xs using List.reverseRecOn with
  | nil => exact ⟨[], L, rfl, List.nodup_nil, rfl⟩
  | append_singleton xs x ih =>
      rcases ih with ⟨D, R, hsplit, hnodup, hset⟩
      rw [touchAll_snoc, hsplit, toFinset_snoc, ← hset]
      by_cases hx : x ∈ D
      · refine ⟨x :: D.erase x, R, by rw [List.erase_append_left _ hx]; rfl, ?_, ?_⟩
        · exact List.nodup_cons.2 ⟨hnodup.not_mem_erase, hnodup.erase x⟩
        · rw [List.toFinset_eq_of_perm _ _ (List.perm_cons_erase hx).symm,
            Finset.insert_eq_of_mem (List.mem_toFinset.2 hx)]
      · exact ⟨x :: D, R.erase x, by rw [List.erase_append_right _ hx]; rfl,
          List.nodup_cons.2 ⟨hx, hnodup⟩, List.toFinset_cons⟩

/-- While no more than `C` elements are touched, all of them stay close. -/
theorem mem_take_touchAll {C : Nat} (L : List α) {xs : List α} (hfit : xs.toFinset.card ≤ C) {x : α}
    (hx : x ∈ xs) : x ∈ (touchAll L xs).take C := by
  rcases exists_front L xs with ⟨D, R, hsplit, hnodup, hset⟩
  have hlen : D.length ≤ C := by
    rw [← List.toFinset_card_of_nodup hnodup, hset]
    exact hfit
  have hmem : x ∈ D := by
    rw [← List.mem_toFinset, hset]
    exact List.mem_toFinset.2 hx
  rw [hsplit, List.take_append, List.take_of_length_le hlen]
  exact List.mem_append_left _ hmem

/-- Each of them is missed once at most. -/
theorem misses_le_card {C : Nat} (L : List α) {xs : List α} (hfit : xs.toFinset.card ≤ C) :
    misses C L xs ≤ xs.toFinset.card := by
  induction xs using List.reverseRecOn with
  | nil => exact Nat.le_refl _
  | append_singleton xs x ih =>
      rw [toFinset_snoc] at hfit ⊢
      rw [misses_snoc]
      by_cases hx : x ∈ xs
      · have hsame : insert x xs.toFinset = xs.toFinset :=
          Finset.insert_eq_of_mem (List.mem_toFinset.2 hx)
        rw [hsame] at hfit ⊢
        rw [if_pos (mem_take_touchAll L hfit hx)]
        exact ih hfit
      · have hnew : (insert x xs.toFinset).card = xs.toFinset.card + 1 :=
          Finset.card_insert_of_notMem (by simpa using hx)
        have hle := ih (by omega)
        rw [hnew]
        split
        · omega
        · omega

/-! ## Schedules -/

/-- What a schedule pays, given as the elements touched and the placement chosen after each touch.
An element may be fetched when it is touched; only other fetches are paid for. -/
def cost : Finset α → List (α × Finset α) → Nat
  | _, [] => 0
  | F, (x, G) :: rest => (if x ∈ F then 0 else 1) + (G \ insert x F).card + cost G rest

/-- The weights of the first `k` elements that are not in `F`: `k` for the first, 1 for the last. -/
def potential (F : Finset α) : Nat → List α → Nat
  | 0, _ => 0
  | _, [] => 0
  | k + 1, y :: L => (if y ∈ F then 0 else k + 1) + potential F k L

section Potential

variable {F G : Finset α} {L : List α} {x : α} {k : Nat}

@[simp] theorem potential_nil (F : Finset α) (k : Nat) : potential F k [] = 0 := by
  cases k with
  | zero => rfl
  | succ k => rfl

theorem potential_eq_zero (h : ∀ y ∈ L.take k, y ∈ F) : potential F k L = 0 := by
  induction L generalizing k with
  | nil => exact potential_nil F k
  | cons y L ih =>
      cases k with
      | zero => rfl
      | succ k =>
          rw [List.take_succ_cons] at h
          have hrest := ih fun z hz => h z (List.mem_cons_of_mem _ hz)
          simp [potential, h y List.mem_cons_self, hrest]

/-- One place less: every element that counts loses one. -/
theorem potential_succ (F : Finset α) (k : Nat) (L : List α) :
    potential F (k + 1) L = potential F k L + (L.take (k + 1)).countP fun y => y ∉ F := by
  induction L generalizing k with
  | nil => simp
  | cons y L ih =>
      cases k with
      | zero =>
          by_cases hy : y ∈ F <;> simp [potential, hy]
      | succ k =>
          rw [potential, ih k, potential, List.take_succ_cons, List.countP_cons]
          by_cases hy : y ∈ F
          · simp [hy]
          · simp [hy]
            omega

/-- Without `x` and with one place less nothing gains weight. -/
theorem potential_erase_le (F : Finset α) (k : Nat) (L : List α) (x : α) :
    potential F k (L.erase x) ≤ potential F (k + 1) L := by
  induction L generalizing k with
  | nil => simp
  | cons y L ih =>
      by_cases hy : y = x
      · rw [hy, List.erase_cons_head, potential]
        exact Nat.le_add_left _ _
      · rw [List.erase_cons_tail (by simpa using hy)]
        cases k with
        | zero => exact Nat.zero_le _
        | succ k =>
            have hrest := ih k
            rw [potential, potential]
            by_cases hF : y ∈ F
            · simpa [hF] using hrest
            · simp only [hF, if_false]
              omega

/-- What the schedule gives up counts from then on. -/
theorem potential_give_up (F G : Finset α) (k : Nat) (hnodup : L.Nodup) :
    potential G k L ≤ potential F k L + k * (F \ G).card := by
  have hlist : ∀ (L : List α) (k : Nat),
      potential G k L ≤ potential F k L + k * L.countP fun y => y ∈ F \ G := by
    intro L
    induction L with
    | nil => simp
    | cons y L ih =>
        intro k
        cases k with
        | zero => exact Nat.zero_le _
        | succ k =>
            have hrest := ih k
            have hhead : (if y ∈ G then 0 else k + 1) ≤
                (if y ∈ F then 0 else k + 1) + (k + 1) * if decide (y ∈ F \ G) then 1 else 0 := by
              by_cases hF : y ∈ F <;> by_cases hG : y ∈ G <;> simp [hF, hG]
            rw [potential, potential, List.countP_cons, Nat.mul_add, Nat.add_mul, Nat.one_mul]
            omega
  have hcount : L.countP (fun y => y ∈ F \ G) ≤ (F \ G).card := by
    rw [List.countP_eq_length_filter, ← List.toFinset_card_of_nodup (hnodup.filter _)]
    refine Finset.card_le_card ?_
    intro y hy
    simpa using (List.mem_filter.1 (List.mem_toFinset.1 hy)).2
  exact (hlist L k).trans (Nat.add_le_add_left (Nat.mul_le_mul_left k hcount) _)

/-- Only the close elements count. -/
theorem potential_take (F : Finset α) (k : Nat) (L : List α) :
    potential F k (L.take k) = potential F k L := by
  induction L generalizing k with
  | nil => simp
  | cons y L ih =>
      cases k with
      | zero => rfl
      | succ k => rw [List.take_succ_cons, potential, potential, ih k]

/-- A schedule that holds an element the list does not have close has given up one it has. -/
theorem exists_given_up (hnodup : L.Nodup) (hcard : F.card = (L.take k).length) (hF : x ∈ F)
    (hx : x ∉ L.take k) : 0 < (L.take k).countP fun y => y ∉ F := by
  by_contra hnone
  have hsub : insert x (L.take k).toFinset ⊆ F := by
    refine Finset.insert_subset hF ?_
    intro y hy
    by_contra hyF
    exact hnone (List.countP_pos_iff.2 ⟨y, List.mem_toFinset.1 hy, decide_eq_true hyF⟩)
  have hle := Finset.card_le_card hsub
  rw [Finset.card_insert_of_notMem (by simpa using hx),
    List.toFinset_card_of_nodup ((List.take_sublist k L).nodup hnodup)] at hle
  omega

/-- A miss on an element the schedule holds is paid from the potential. -/
theorem miss_le (hnodup : L.Nodup) (hcard : F.card = (L.take (k + 1)).length) (hF : x ∈ F) :
    (if x ∈ L.take (k + 1) then 0 else 1) + potential F k (L.erase x) ≤ potential F (k + 1) L := by
  by_cases hx : x ∈ L.take (k + 1)
  · simpa [hx] using potential_erase_le F k L x
  · have hpos := exists_given_up hnodup hcard hF hx
    have hx' : x ∉ L.take k := fun hmem => hx (List.take_subset_take_left L (Nat.le_succ k) hmem)
    rw [if_neg hx, ← potential_take F k (L.erase x), take_erase_of_notMem hx', potential_take,
      potential_succ]
    omega

/-- One touch: the miss and the gain in potential are paid by `C + 1` times what the schedule pays. -/
theorem touch_le (hnodup : L.Nodup) (hcard : F.card = (L.take (k + 1)).length)
    (hcard' : G.card = F.card) :
    (if x ∈ L.take (k + 1) then 0 else 1) + potential G (k + 1) (x :: L.erase x) ≤
      (k + 2) * ((if x ∈ F then 0 else 1) + (G \ insert x F).card) + potential F (k + 1) L := by
  have herase := hnodup.erase x
  have hcomm : (F \ G).card = (G \ F).card := Finset.card_sdiff_comm hcard'.symm
  by_cases hF : x ∈ F
  · have hmiss := miss_le hnodup hcard hF
    have hcons : (x :: L.erase x).Nodup := List.nodup_cons.2 ⟨hnodup.not_mem_erase, herase⟩
    have hgive := potential_give_up F G (k + 1) hcons
    have hstart : potential F (k + 1) (x :: L.erase x) = potential F k (L.erase x) := by
      simp [potential, hF]
    rw [hstart, hcomm] at hgive
    rw [if_pos hF, Finset.insert_eq_of_mem hF, Nat.zero_add]
    have hpaid : (k + 1) * (G \ F).card ≤ (k + 2) * (G \ F).card :=
      Nat.mul_le_mul_right _ (Nat.le_succ _)
    omega
  · have hgive := potential_give_up F G k herase
    have hold := potential_erase_le F k L x
    have hmiss : (if x ∈ L.take (k + 1) then 0 else 1) ≤ 1 := by
      split <;> omega
    have hother : (G \ insert x F).card = ((G \ F).erase x).card := by
      rw [Finset.sdiff_insert]
    rw [hcomm] at hgive
    rw [if_neg hF, hother, potential]
    by_cases hG : x ∈ G
    · -- the schedule fetches it too, and gives up one element more than it pays for
      have hmem : x ∈ G \ F := Finset.mem_sdiff.2 ⟨hG, hF⟩
      have hone := Finset.card_erase_add_one hmem
      rw [← hone, Nat.mul_add, Nat.mul_one] at hgive
      rw [if_pos hG, Nat.add_mul k 2, Nat.mul_add, Nat.mul_one]
      omega
    · have hnot : x ∉ G \ F := fun hmem => hG (Finset.mem_sdiff.1 hmem).1
      rw [Finset.erase_eq_of_notMem hnot, if_neg hG, Nat.add_mul k 2, Nat.mul_add, Nat.mul_one]
      omega

end Potential

/-- The misses of the list against the cost of any schedule with the same number of places. -/
theorem misses_le {C : Nat} (hC : 1 ≤ C) {xs : List (α × Finset α)} :
    ∀ {L : List α} {F : Finset α}, L.Nodup → (∀ x ∈ xs, x.1 ∈ L) → F.card = (L.take C).length →
      (∀ x ∈ xs, x.2.card = F.card) →
      misses C L (xs.map Prod.fst) ≤ (C + 1) * cost F xs + potential F C L := by
  obtain ⟨k, rfl⟩ : ∃ k, C = k + 1 := ⟨C - 1, by omega⟩
  induction xs with
  | nil =>
      intro L F _ _ _ _
      exact Nat.zero_le _
  | cons y xs ih =>
      rcases y with ⟨x, G⟩
      intro L F hnodup htouched hcard hplaces
      have hcard' : G.card = F.card := hplaces (x, G) List.mem_cons_self
      have hx : x ∈ L := htouched (x, G) List.mem_cons_self
      have hperm : L.Perm (x :: L.erase x) := List.perm_cons_erase hx
      have hlen : ((x :: L.erase x).take (k + 1)).length = (L.take (k + 1)).length := by
        rw [List.length_take, List.length_take, hperm.length_eq]
      have hrest := ih (hperm.nodup_iff.1 hnodup)
        (fun z hz => hperm.mem_iff.1 (htouched z (List.mem_cons_of_mem _ hz)))
        (by rw [hcard', hcard, hlen])
        (fun z hz => (hplaces z (List.mem_cons_of_mem _ hz)).trans hcard'.symm)
      have hstep := touch_le (x := x) hnodup hcard hcard'
      rw [List.map_cons, misses, cost]
      calc
        (if x ∈ L.take (k + 1) then 0 else 1) + misses (k + 1) (x :: L.erase x) (xs.map Prod.fst)
            ≤ (if x ∈ L.take (k + 1) then 0 else 1) +
                ((k + 1 + 1) * cost G xs + potential G (k + 1) (x :: L.erase x)) :=
              Nat.add_le_add_left hrest _
        _ = (if x ∈ L.take (k + 1) then 0 else 1) + potential G (k + 1) (x :: L.erase x) +
              (k + 1 + 1) * cost G xs := by omega
        _ ≤ (k + 2) * ((if x ∈ F then 0 else 1) + (G \ insert x F).card) +
              potential F (k + 1) L + (k + 1 + 1) * cost G xs := Nat.add_le_add_right hstep _
        _ = (k + 1 + 1) * ((if x ∈ F then 0 else 1) + (G \ insert x F).card + cost G xs) +
              potential F (k + 1) L := by ring

end Recency
end Shambles
