import Shambles.Lib.Layout

/-!
# MappedFile — windows of a file in an address space

A process sees a file through windows of one fixed size: a `Mapping` shows the bytes from `offset`
on at the addresses from `base` on.  A store to a mapped address reaches the file; a store to any
other address has no outcome.
-/

namespace Shambles
namespace MappedFile

open Layout

structure Mapping where
  base : Nat
  offset : Nat
  deriving DecidableEq, Repr

/-- The place in the file that an address shows. -/
def translate (window : Nat) (maps : List Mapping) (addr : Nat) : Option Nat :=
  (maps.find? fun m => m.base ≤ addr ∧ addr < m.base + window).map fun m =>
    m.offset + (addr - m.base)

def store (window : Nat) (maps : List Mapping) (file : Nat → Byte) (addr : Nat)
    (value : Byte) : Option (Nat → Byte) :=
  (translate window maps addr).map fun pos => Function.update file pos value

/-- Store bytes one after the other, at offsets from a pointer. -/
def storeBytes (window : Nat) (maps : List Mapping) (file : Nat → Byte) (ptr : Nat) :
    List (Nat × Byte) → Option (Nat → Byte)
  | [] => some file
  | x :: bytes =>
      match store window maps file (ptr + x.1) x.2 with
      | some file' => storeBytes window maps file' ptr bytes
      | none => none

/-- The windows start at multiples of their size, no two of them at the same address. -/
structure Separate (window : Nat) (maps : List Mapping) : Prop where
  aligned : ∀ m ∈ maps, window ∣ m.base
  apart : ∀ m ∈ maps, ∀ n ∈ maps, m.base = n.base → m = n

section Windows

variable {window : Nat} {maps : List Mapping} {m : Mapping} {addr : Nat}

/-- Aligned windows that share an address start at the same one. -/
theorem base_eq_of_overlap {a b : Nat} (ha : window ∣ a) (hb : window ∣ b) (hale : a ≤ addr)
    (halt : addr < a + window) (hble : b ≤ addr) (hblt : addr < b + window) : a = b := by
  rcases ha with ⟨i, rfl⟩
  rcases hb with ⟨j, rfl⟩
  have hij : i < j + 1 := by
    by_contra hge
    have hmul : window * (j + 1) ≤ window * i := Nat.mul_le_mul_left window (not_lt.1 hge)
    rw [Nat.mul_succ] at hmul
    omega
  have hji : j < i + 1 := by
    by_contra hge
    have hmul : window * (i + 1) ≤ window * j := Nat.mul_le_mul_left window (not_lt.1 hge)
    rw [Nat.mul_succ] at hmul
    omega
  have heq : i = j := by omega
  rw [heq]

theorem translate_eq (h : Separate window maps) (hm : m ∈ maps) (hle : m.base ≤ addr)
    (hlt : addr < m.base + window) :
    translate window maps addr = some (m.offset + (addr - m.base)) := by
  cases hfind : maps.find? fun m => m.base ≤ addr ∧ addr < m.base + window with
  | none =>
      have hnot := List.find?_eq_none.1 hfind m hm
      simp [hle, hlt] at hnot
  | some n =>
      have hn : n ∈ maps := List.mem_of_find?_eq_some hfind
      have hin : n.base ≤ addr ∧ addr < n.base + window := by simpa using List.find?_some hfind
      have hbase := base_eq_of_overlap (h.aligned n hn) (h.aligned m hm) hin.1 hin.2 hle hlt
      obtain rfl := h.apart n hn m hm hbase
      rw [translate, hfind]
      rfl

theorem store_eq (h : Separate window maps) (hm : m ∈ maps) (hle : m.base ≤ addr)
    (hlt : addr < m.base + window) (file : Nat → Byte) (value : Byte) :
    store window maps file addr value =
      some (Function.update file (m.offset + (addr - m.base)) value) := by
  simp [store, translate_eq h hm hle hlt]

/-- A block that lies in one window is written where that window shows it. -/
theorem storeBytes_eq (h : Separate window maps) (hm : m ∈ maps) {ptr size : Nat}
    (hle : m.base ≤ ptr) (hfit : ptr + size ≤ m.base + window) {bytes : List (Nat × Byte)}
    (hbytes : ∀ x ∈ bytes, x.1 < size) :
    ∀ file : Nat → Byte, storeBytes window maps file ptr bytes =
      some (writeBytes file (m.offset + (ptr - m.base)) bytes) := by
  induction bytes with
  | nil =>
      intro file
      rfl
  | cons x bytes ih =>
      intro file
      have hx : x.1 < size := hbytes x List.mem_cons_self
      have hplace : m.offset + (ptr + x.1 - m.base) = m.offset + (ptr - m.base) + x.1 := by omega
      have hstore : store window maps file (ptr + x.1) x.2 =
          some (Function.update file (m.offset + (ptr - m.base) + x.1) x.2) := by
        rw [← hplace]
        exact store_eq h hm (by omega) (by omega) file x.2
      simp only [storeBytes, hstore]
      exact ih (fun y hy => hbytes y (List.mem_cons_of_mem _ hy)) _

end Windows

end MappedFile
end Shambles
