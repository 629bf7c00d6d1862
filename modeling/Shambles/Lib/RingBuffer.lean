import Mathlib.Tactic
import Mathlib.Data.List.Rotate

/-!
# RingBuffer — the last entries of a sequence, in a buffer of fixed size

A buffer is overwritten at a position that goes round.  `Holds` says which entries it contains:
read from the write position on, the last `m` of everything that was written, with empty places
for what is missing.
-/

namespace Shambles
namespace RingBuffer

variable {α : Type*}

/-- The last `m` elements. -/
def lastN (m : Nat) (L : List α) : List α :=
  L.drop (L.length - m)

/-- The buffer of size `m` with write position `pos`, after the sequence `T` has been written. -/
structure Holds (buffer : List (Option α)) (pos m : Nat) (T : List α) : Prop where
  length : buffer.length = m
  pos_lt : pos < m
  content : buffer.rotate pos = lastN m (List.replicate m none ++ T.map some)

theorem holds_empty {m : Nat} (hm : 0 < m) : Holds (List.replicate m (none : Option α)) 0 m [] := by
  refine ⟨by simp, hm, ?_⟩
  simp [lastN]

theorem lastN_concat {m : Nat} {L : List α} (hm : 0 < m) (hlen : m ≤ L.length) (y : α) :
    lastN m (L ++ [y]) = (lastN m L).tail ++ [y] := by
  have hdrop : (L ++ [y]).length - m = L.length - m + 1 := by
    simp only [List.length_append, List.length_cons, List.length_nil]
    omega
  rw [lastN, hdrop, List.drop_append_of_le_length (by omega), lastN, List.tail_drop]

/-- Overwriting the oldest entry and going on. -/
theorem rotate_set {buffer : List α} {pos : Nat} (hpos : pos < buffer.length) (y : α) :
    (buffer.set pos y).rotate ((pos + 1) % buffer.length) = (buffer.rotate pos).tail ++ [y] := by
  have hlen : (buffer.set pos y).length = buffer.length := by simp
  calc (buffer.set pos y).rotate ((pos + 1) % buffer.length)
      = (buffer.set pos y).rotate (pos + 1) := by rw [← hlen, List.rotate_mod]
    _ = (buffer.set pos y).drop (pos + 1) ++ (buffer.set pos y).take (pos + 1) :=
        List.rotate_eq_drop_append_take (by rw [hlen]; omega)
    _ = buffer.drop (pos + 1) ++ (buffer.take pos ++ [y]) := by
        rw [List.drop_set_of_lt (by omega), List.take_add_one, List.take_set_of_le le_rfl,
          List.getElem?_set_self hpos]
        rfl
    _ = (buffer.rotate pos).tail ++ [y] := by
        rw [List.rotate_eq_drop_append_take hpos.le, List.drop_eq_getElem_cons hpos,
          List.cons_append, List.tail_cons, List.append_assoc]

/-- An entry that is overwritten with itself. -/
theorem set_eq_self {buffer : List (Option α)} {pos : Nat} {y : Option α}
    (h : buffer[pos]? = some y) : buffer.set pos y = buffer := by
  rcases List.getElem?_eq_some_iff.1 h with ⟨hpos, rfl⟩
  exact List.set_getElem_self hpos

/-! ## Counting entries -/

section Count

variable [DecidableEq α] {buffer : List (Option α)} {pos : Nat}

theorem count_set_none (hpos : pos < buffer.length) (a : α) :
    (buffer.set pos none).count (some a) =
      buffer.count (some a) - if buffer[pos]? = some (some a) then 1 else 0 := by
  rw [List.count_set hpos, List.getElem?_eq_getElem hpos]
  simp

theorem count_set_some (hpos : pos < buffer.length) (x a : α) :
    (buffer.set pos (some x)).count (some a) =
      (buffer.set pos none).count (some a) + if x = a then 1 else 0 := by
  rw [List.count_set hpos, List.count_set hpos]
  simp

/-- Two different entries share the places of the buffer. -/
theorem count_add_count_le {a b : Option α} (hne : a ≠ b) :
    buffer.count a + buffer.count b ≤ buffer.length := by
  have hle : buffer.count b ≤ buffer.countP (fun entry => ¬ entry == a) := by
    refine List.countP_mono_left ?_
    intro entry _ hentry
    have : entry = b := by simpa using hentry
    simpa [this] using hne.symm
  have hsplit := List.length_eq_countP_add_countP (l := buffer) (fun entry => entry == a)
  simp only [Bool.not_eq_true] at hsplit hle
  rw [List.count]
  omega

omit [DecidableEq α] in
/-- Clearing the entries that do not pass a test. -/
theorem mem_map_filter {keep : α → Bool} {a : α} :
    some a ∈ buffer.map (Option.filter keep) ↔ some a ∈ buffer ∧ keep a = true := by
  simp only [List.mem_map, Option.filter_eq_some_iff]
  constructor
  · rintro ⟨entry, hmem, rfl, hkeep⟩
    exact ⟨hmem, hkeep⟩
  · rintro ⟨hmem, hkeep⟩
    exact ⟨some a, hmem, rfl, hkeep⟩

theorem count_map_filter {keep : α → Bool} {a : α} (hkeep : keep a = true) :
    (buffer.map (Option.filter keep)).count (some a) = buffer.count (some a) := by
  have hsame : ∀ entry : Option α, entry.filter keep = some a ↔ entry = some a := by
    intro entry
    rw [Option.filter_eq_some_iff]
    exact ⟨fun h => h.1, fun h => ⟨h, hkeep⟩⟩
  rw [List.count, List.countP_map]
  refine List.countP_congr ?_
  intro entry _
  simp [hsame entry]

end Count

namespace Holds

variable {buffer : List (Option α)} {pos m : Nat} {T : List α}

theorem write (h : Holds buffer pos m T) (x : α) :
    Holds (buffer.set pos (some x)) ((pos + 1) % m) m (T ++ [x]) := by
  have hm : 0 < m := Nat.zero_lt_of_lt h.pos_lt
  refine ⟨by simp [h.length], Nat.mod_lt _ hm, ?_⟩
  have hpos : pos < buffer.length := by
    rw [h.length]
    exact h.pos_lt
  have hset := rotate_set hpos (some x)
  rw [h.length] at hset
  rw [hset, h.content, List.map_append, ← List.append_assoc]
  exact (lastN_concat hm (by simp) (some x)).symm

/-- The buffer contains an element as often as the last `m` elements written. -/
theorem count_eq [DecidableEq α] (h : Holds buffer pos m T) (x : α) :
    buffer.count (some x) = (lastN m T).count x := by
  have hrotate : buffer.count (some x) = (buffer.rotate pos).count (some x) :=
    ((List.rotate_perm buffer pos).count_eq (some x)).symm
  have hdrop : (List.replicate m (none : Option α) ++ T.map some).length - m = T.length := by
    simp
  have hempty : ((List.replicate m (none : Option α)).drop T.length).count (some x) = 0 := by
    exact List.count_eq_zero.2 (by simp)
  rw [hrotate, h.content, lastN, hdrop, List.drop_append, List.count_append, hempty, Nat.zero_add,
    List.length_replicate, ← List.map_drop]
  exact List.count_map_of_injective _ _ (Option.some_injective α) x

end Holds

end RingBuffer
end Shambles
