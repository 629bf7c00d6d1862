import Mathlib.Tactic

/-!
# CString — terminated strings in a buffer

A string of C is a place in a buffer, read up to the first terminator.  Writing a terminator into
the buffer cuts the string in two: what stood before it is a string now, and so is the rest.

* `strAt`, `find`: the string at a place, and the place of a character in it (`strstr` with a
  needle of one character).
* `AtPlace`: what a buffer holds from a place on; the rules below speak about it only.
-/

namespace Shambles
namespace CString

variable {α : Type*} [DecidableEq α]

/-- The string at a place. -/
def strAt (nul : α) (buf : List α) (pos : Nat) : List α :=
  (buf.drop pos).takeWhile fun c => c ≠ nul

/-- The place of the first `c` in the string at `pos`; `none` is a null pointer. -/
def find (nul : α) (buf : List α) (pos : Nat) (c : α) : Option Nat :=
  if c ∈ strAt nul buf pos then some (pos + (strAt nul buf pos).idxOf c) else none

/-- From `pos` on the buffer holds `s` and a terminator, and nothing behind it. -/
structure AtPlace (nul : α) (buf : List α) (pos : Nat) (s : List α) : Prop where
  holds : buf.drop pos = s ++ [nul]
  notMem : nul ∉ s

section Rules

variable {nul c : α} {buf s t tail : List α} {pos : Nat}

theorem strAt_of_drop (hdrop : buf.drop pos = s ++ nul :: tail) (hs : nul ∉ s) :
    strAt nul buf pos = s := by
  have hall : ∀ x ∈ s, decide (x ≠ nul) = true := by
    intro x hx
    exact decide_eq_true (ne_of_mem_of_not_mem hx hs)
  rw [strAt, hdrop, List.takeWhile_append_of_pos hall]
  simp

theorem AtPlace.strAt_eq (h : AtPlace nul buf pos s) : strAt nul buf pos = s :=
  strAt_of_drop h.holds h.notMem

theorem AtPlace.find_eq (h : AtPlace nul buf pos (s ++ c :: t)) (hs : c ∉ s) :
    find nul buf pos c = some (pos + s.length) := by
  rw [find, h.strAt_eq, if_pos (by simp), List.idxOf_append_of_notMem hs]
  simp

/-- A terminator over the first `c`: the part before it is a string of its own. -/
theorem AtPlace.cut (h : AtPlace nul buf pos (s ++ c :: t)) :
    strAt nul (buf.set (pos + s.length) nul) pos = s := by
  have hdrop : (buf.set (pos + s.length) nul).drop pos = s ++ nul :: (t ++ [nul]) := by
    rw [List.drop_set, if_neg (by omega), h.holds]
    simp
  refine strAt_of_drop hdrop ?_
  intro hmem
  exact h.notMem (by simp [hmem])

omit [DecidableEq α] in
/-- And the part behind it another. -/
theorem AtPlace.rest (h : AtPlace nul buf pos (s ++ c :: t)) :
    AtPlace nul (buf.set (pos + s.length) nul) (pos + s.length + 1) t := by
  refine ⟨?_, ?_⟩
  · have hsplit : buf.drop (pos + s.length + 1) = (buf.drop pos).drop (s.length + 1) := by
      rw [List.drop_drop, Nat.add_assoc]
    rw [List.drop_set, if_pos (Nat.lt_succ_self _), hsplit, h.holds]
    simp
  · intro hmem
    exact h.notMem (by simp [hmem])

end Rules

end CString
end Shambles
