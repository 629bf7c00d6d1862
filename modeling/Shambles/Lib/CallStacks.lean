import Mathlib.Tactic

/-!
# CallStacks — the activations of several threads in one list

All activations of a program's threads stand in one list, newest first.  The call stack of a thread
is the sublist of its own activations, so the one that runs is the first of them (`top`).  A step of
a thread replaces that activation, or removes it when it returns (`resume`); a call puts a new one
in front.
-/

namespace Shambles
namespace CallStacks

variable {α : Type*} (owner : α → Nat)

/-- The newest activation of thread `t`. -/
def top (t : Nat) (stack : List α) : Option α :=
  stack.find? (fun x => owner x = t)

/-- Put `r` in the place of the newest activation of thread `t`; `none` removes it. -/
def resume (t : Nat) (r : Option α) : List α → List α
  | [] => []
  | x :: rest => if owner x = t then r.toList ++ rest else x :: resume t r rest

variable {owner} {t : Nat} {stack : List α} {x : α} {r : Option α}

theorem top_split (h : top owner t stack = some x) :
    ∃ A B, stack = A ++ x :: B ∧ ∀ r, resume owner t r stack = A ++ (r.toList ++ B) := by
  induction stack with
  | nil => simp [top] at h
  | cons y rest ih =>
      by_cases hy : owner y = t
      · obtain rfl : y = x := by simpa [top, hy] using h
        exact ⟨[], rest, rfl, fun r => by simp [resume, hy]⟩
      · have hrest : top owner t rest = some x := by simpa [top, hy] using h
        rcases ih hrest with ⟨A, B, hsplit, hresume⟩
        refine ⟨y :: A, B, by simp [hsplit], ?_⟩
        intro r
        simp [resume, hy, hresume r]

theorem mem_of_top (h : top owner t stack = some x) : x ∈ stack :=
  List.mem_of_find?_eq_some h

/-- What holds of every activation and of the new one holds after the step. -/
theorem forall_resume {P : α → Prop} (hold : ∀ y ∈ stack, P y) (hnew : ∀ y ∈ r, P y) :
    ∀ y ∈ resume owner t r stack, P y := by
  induction stack with
  | nil => simp [resume]
  | cons z rest ih =>
      intro y hy
      have hrest : ∀ y ∈ rest, P y := fun y hy => hold y (List.mem_cons_of_mem _ hy)
      by_cases hz : owner z = t
      · rw [resume, if_pos hz] at hy
        rcases List.mem_append.1 hy with hy | hy
        · exact hnew y (by simpa using hy)
        · exact hrest y hy
      · rw [resume, if_neg hz] at hy
        rcases List.mem_cons.1 hy with rfl | hy
        · exact hold y List.mem_cons_self
        · exact ih hrest y hy

/-- Every other activation is still there. -/
theorem mem_resume_of_mem (h : top owner t stack = some x) {y : α} (hy : y ∈ stack) :
    y = x ∨ y ∈ resume owner t r stack := by
  rcases top_split h with ⟨A, B, hsplit, hresume⟩
  rw [hresume]
  rw [hsplit] at hy
  rcases List.mem_append.1 hy with hy | hy
  · exact Or.inr (List.mem_append_left _ hy)
  · rcases List.mem_cons.1 hy with rfl | hy
    · exact Or.inl rfl
    · exact Or.inr (List.mem_append_right _ (List.mem_append_right _ hy))

theorem mem_resume_new (h : top owner t stack = some x) {y : α} :
    y ∈ resume owner t (some y) stack := by
  rcases top_split h with ⟨A, B, _, hresume⟩
  simp [hresume]

theorem countP_resume (p : α → Bool) (h : top owner t stack = some x) :
    (resume owner t r stack).countP p + [x].countP p = stack.countP p + r.toList.countP p := by
  rcases top_split h with ⟨A, B, hsplit, hresume⟩
  have hx : ([x] ++ B).countP p = [x].countP p + B.countP p := List.countP_append
  rw [hresume, hsplit, List.countP_append, List.countP_append, List.countP_append]
  change _ = A.countP p + ([x] ++ B).countP p + _
  rw [hx]
  omega

end CallStacks
end Shambles
