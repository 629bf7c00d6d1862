import Mathlib.Data.List.Forall2
import Mathlib.Tactic

/-!
# Relabel — one list told in two languages

Two lists describe the same sequence when their entries are related one by one (`List.Forall₂`).  If
the relation is one-to-one, the operations on lists that go by equality (membership, `erase`, a search
for one entry) carry over from one language to the other.
-/

namespace Shambles
namespace Relabel

variable {α β : Type*}

structure OneToOne (R : α → β → Prop) : Prop where
  left : ∀ {a a' b}, R a b → R a' b → a = a'
  right : ∀ {a b b'}, R a b → R a b' → b = b'

variable {R S : α → β → Prop} {l : List α} {l' : List β} {a : α} {b : β}

theorem OneToOne.eq_iff (hone : OneToOne R) {a' : α} {b' : β} (h : R a b) (h' : R a' b') :
    a = a' ↔ b = b' := by
  constructor
  · rintro rfl
    exact hone.right h h'
  · rintro rfl
    exact hone.left h h'

theorem exists_of_mem (h : List.Forall₂ R l l') (ha : a ∈ l) : ∃ b ∈ l', R a b := by
  induction h with
  | nil => cases ha
  | cons hhead _ ih =>
      rcases List.mem_cons.1 ha with rfl | ha
      · exact ⟨_, List.mem_cons_self, hhead⟩
      · rcases ih ha with ⟨b, hb, hab⟩
        exact ⟨b, List.mem_cons_of_mem _ hb, hab⟩

theorem mem_iff (h : List.Forall₂ R l l') (hone : OneToOne R) (hab : R a b) : a ∈ l ↔ b ∈ l' := by
  constructor
  · intro ha
    rcases exists_of_mem h ha with ⟨b', hb', hab'⟩
    exact hone.right hab hab' ▸ hb'
  · intro hb
    rcases exists_of_mem h.flip hb with ⟨a', ha', hab'⟩
    exact hone.left hab hab' ▸ ha'

theorem mono_of_mem (h : List.Forall₂ R l l') (himp : ∀ a ∈ l, ∀ b, R a b → S a b) :
    List.Forall₂ S l l' := by
  induction h with
  | nil => exact List.Forall₂.nil
  | cons hhead _ ih =>
      refine List.Forall₂.cons (himp _ List.mem_cons_self _ hhead) (ih ?_)
      intro a ha
      exact himp a (List.mem_cons_of_mem _ ha)

theorem erase [DecidableEq α] [DecidableEq β] (h : List.Forall₂ R l l') (hone : OneToOne R)
    (hab : R a b) : List.Forall₂ R (l.erase a) (l'.erase b) := by
  induction h with
  | nil => exact List.Forall₂.nil
  | @cons x y l l' hhead htail ih =>
      by_cases hx : x = a
      · have hy : y = b := (hone.eq_iff hhead hab).1 hx
        simpa [hx, hy] using htail
      · have hy : y ≠ b := fun hy => hx ((hone.eq_iff hhead hab).2 hy)
        rw [List.erase_cons_tail (by simpa using hx), List.erase_cons_tail (by simpa using hy)]
        exact List.Forall₂.cons hhead ih

/-- A test that only the partner of `a` passes finds that partner. -/
theorem find?_eq {p : β → Bool} (h : List.Forall₂ R l l') (ha : a ∈ l) (hab : R a b)
    (hp : ∀ x ∈ l, ∀ y, R x y → (p y = true ↔ x = a)) (hone : OneToOne R) : l'.find? p = some b := by
  induction h with
  | nil => cases ha
  | @cons x y l l' hhead _ ih =>
      by_cases hx : x = a
      · have hy : y = b := (hone.eq_iff hhead hab).1 hx
        rw [List.find?_cons_of_pos ((hp x List.mem_cons_self y hhead).2 hx), hy]
      · have hy : ¬ p y = true := fun hy => hx ((hp x List.mem_cons_self y hhead).1 hy)
        have ha' : a ∈ l := (List.mem_cons.1 ha).resolve_left (Ne.symm hx)
        rw [List.find?_cons_of_neg hy]
        exact ih ha' fun x hx => hp x (List.mem_cons_of_mem _ hx)

/-- Tests that agree on partners keep partners. -/
theorem filter {p : α → Bool} {q : β → Bool} (h : List.Forall₂ R l l')
    (hpq : ∀ x ∈ l, ∀ y, R x y → p x = q y) : List.Forall₂ R (l.filter p) (l'.filter q) := by
  induction h with
  | nil => exact List.Forall₂.nil
  | @cons x y l l' hhead _ ih =>
      have hsame : p x = q y := hpq x List.mem_cons_self y hhead
      have hrest := ih fun x hx => hpq x (List.mem_cons_of_mem _ hx)
      by_cases hx : p x = true
      · have hy : q y = true := hsame ▸ hx
        rw [List.filter_cons_of_pos hx, List.filter_cons_of_pos hy]
        exact List.Forall₂.cons hhead hrest
      · have hy : ¬ q y = true := hsame ▸ hx
        rwa [List.filter_cons_of_neg hx, List.filter_cons_of_neg hy]

/-- Tests that agree on partners are passed equally often. -/
theorem countP_eq {p : α → Bool} {q : β → Bool} (h : List.Forall₂ R l l')
    (hpq : ∀ x ∈ l, ∀ y, R x y → p x = q y) : l.countP p = l'.countP q := by
  rw [List.countP_eq_length_filter, List.countP_eq_length_filter]
  exact (filter h hpq).length_eq

end Relabel
end Shambles
