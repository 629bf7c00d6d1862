import Mathlib.Tactic

/-!
# QueueMerge — merging sorted queues by taking a least head

Every element has a `kind`, which names the queue it waits in.  One step takes the head of a queue,
provided that no other queue has something before it.  `Merged` is what such steps keep:

* what was put out is sorted;
* put out and still waiting make up each queue, in its order;
* whatever waits is behind everything that was put out.

When the queues are empty, the output is the sorted merge (`Merged.finished`).  A tie rule between
queues is part of the relation `r`.
-/

namespace Shambles
namespace QueueMerge

variable {ι α : Type*} [DecidableEq ι]

structure Merged (kind : α → ι) (r : α → α → Prop) (input : ι → List α) (out : List α)
    (queues : ι → List α) : Prop where
  sorted : out.Pairwise r
  parts : ∀ i, out.filter (fun x => kind x = i) ++ queues i = input i
  ahead : ∀ x ∈ out, ∀ i, ∀ y ∈ queues i, r x y

namespace Merged

variable {kind : α → ι} {r : α → α → Prop} {input queues : ι → List α} {out : List α}

theorem init : Merged kind r input [] input where
  sorted := List.Pairwise.nil
  parts := fun _ => rfl
  ahead := by
    intro x hx
    cases hx

/-- What waits is sorted as the input was. -/
theorem sorted_queue (h : Merged kind r input out queues) {i : ι} (hi : (input i).Pairwise r) :
    (queues i).Pairwise r := by
  rw [← h.parts i] at hi
  exact (List.pairwise_append.1 hi).2.1

/-- An element that is before the other heads is before everything that waits elsewhere. -/
theorem before_queue [IsTrans α r] (h : Merged kind r input out queues) {j : ι}
    (hj : (input j).Pairwise r) {x : α} (hx : ∀ y ∈ (queues j).head?, r x y) :
    ∀ y ∈ queues j, r x y := by
  have hsorted := h.sorted_queue hj
  intro y hy
  cases hq : queues j with
  | nil => simp [hq] at hy
  | cons z rest =>
      have hxz : r x z := hx z (by simp [hq])
      rw [hq] at hy hsorted
      rcases List.mem_cons.1 hy with rfl | hrest
      · exact hxz
      · exact IsTrans.trans x z y hxz ((List.pairwise_cons.1 hsorted).1 y hrest)

theorem emit [IsTrans α r] (h : Merged kind r input out queues)
    (hinput : ∀ i, (input i).Pairwise r) {x : α} {rest : List α}
    (hx : queues (kind x) = x :: rest)
    (hleast : ∀ j, j ≠ kind x → ∀ y ∈ (queues j).head?, r x y) :
    Merged kind r input (out ++ [x]) (Function.update queues (kind x) rest) where
  sorted := by
    refine List.pairwise_append.2 ⟨h.sorted, List.pairwise_singleton r x, ?_⟩
    intro y hy z hz
    obtain rfl : z = x := List.mem_singleton.1 hz
    exact h.ahead y hy (kind z) z (by simp [hx])
  parts := by
    intro i
    have hparts := h.parts i
    by_cases hi : i = kind x
    · subst hi
      rw [hx] at hparts
      simpa using hparts
    · have hne : kind x ≠ i := fun heq => hi heq.symm
      simpa [Function.update_of_ne hi, hne] using hparts
  ahead := by
    intro y hy i z hz
    by_cases hi : i = kind x
    · subst hi
      rw [Function.update_self] at hz
      rcases List.mem_append.1 hy with hold | hnew
      · exact h.ahead y hold (kind x) z (by simp [hx, hz])
      · -- the queue of `x` is sorted
        obtain rfl : y = x := List.mem_singleton.1 hnew
        have hsorted := h.sorted_queue (hinput (kind y))
        rw [hx] at hsorted
        exact (List.pairwise_cons.1 hsorted).1 z hz
    · rw [Function.update_of_ne hi] at hz
      rcases List.mem_append.1 hy with hold | hnew
      · exact h.ahead y hold i z hz
      · obtain rfl : y = x := List.mem_singleton.1 hnew
        exact h.before_queue (hinput i) (hleast i hi) z hz

theorem finished (h : Merged kind r input out queues) (hempty : ∀ i, queues i = []) :
    out.Pairwise r ∧ ∀ i, out.filter (fun x => kind x = i) = input i := by
  refine ⟨h.sorted, ?_⟩
  intro i
  have hparts := h.parts i
  rwa [hempty i, List.append_nil] at hparts

end Merged

/-- A merge of images is the image of a merge. -/
theorem exists_merge {β : Type*} {kind : α → ι} {f : β → α} {out : List α} :
    ∀ {queues : ι → List β}, (∀ i, out.filter (fun x => kind x = i) = (queues i).map f) →
      ∃ merge : List β, merge.map f = out ∧
        ∀ i, merge.filter (fun b => kind (f b) = i) = queues i := by
  induction out with
  | nil =>
      intro queues h
      refine ⟨[], rfl, ?_⟩
      intro i
      exact (List.map_eq_nil_iff.1 (h i).symm).symm
  | cons x out ih =>
      intro queues h
      have hx : (queues (kind x)).map f = x :: out.filter (fun y => kind y = kind x) := by
        simpa using (h (kind x)).symm
      rcases List.map_eq_cons_iff.1 hx with ⟨b, rest, hqueue, rfl, hrest⟩
      have htail : ∀ i, out.filter (fun y => kind y = i) =
          (Function.update queues (kind (f b)) rest i).map f := by
        intro i
        by_cases hi : i = kind (f b)
        · subst hi
          simpa using hrest.symm
        · have hne : kind (f b) ≠ i := fun heq => hi heq.symm
          simpa [Function.update_of_ne hi, hne] using h i
      rcases ih htail with ⟨merge, rfl, hmerge⟩
      refine ⟨b :: merge, rfl, ?_⟩
      intro i
      by_cases hi : i = kind (f b)
      · subst hi
        simpa [hqueue] using hmerge (kind (f b))
      · have hne : kind (f b) ≠ i := fun heq => hi heq.symm
        simpa [Function.update_of_ne hi, hne] using hmerge i

end QueueMerge
end Shambles
