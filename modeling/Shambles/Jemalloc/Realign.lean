import Shambles.Jemalloc.Imalloc

/-!
# Realign — the alignment of a large request

`je_posix_memalign` and `je_aligned_alloc` pass a large request on with `SHAMBLES_REALIGN` of the
alignment they were given, and only then does `imalloc_body` check it.  The shift that raises the
lowest bit to bit 12 pushes high bits out of the word, and 0 is replaced: some alignments that the
check would have refused become valid.

An alignment other than 0 is written as `2 ^ t * o` with `o` odd.  For `t < 12` the rewritten one is
`4096 * (o % 2 ^ 52)`, and this is a power of two exactly if `o` leaves the remainder 1.
-/

namespace Shambles
namespace Jemalloc

open Structures

/-- The answer of a call that ended at `label_invalid_alignment`. -/
def Rejects (answer : Answer) : Prop :=
  answer.error = some .EINVAL

instance (answer : Answer) : Decidable (Rejects answer) :=
  inferInstanceAs (Decidable (_ = _))

/-- What the two functions mean to refuse. -/
def Invalid (minAlignment alignment : Nat) : Prop :=
  ¬ alignment.isPowerOfTwo ∨ alignment < minAlignment

/-- Apart from the lowest bit `t`, only bits are set that a shift by `12 - t` pushes out. -/
def LosesBits (alignment : Nat) : Prop :=
  ∃ t < 12, ∃ j, 0 < j ∧ alignment = 2 ^ t * (1 + 2 ^ 52 * j)

/-- The alignments that the rewriting makes valid. -/
def Masked (minAlignment alignment : Nat) : Prop :=
  alignment = 0 ∨ (alignment.isPowerOfTwo ∧ alignment < minAlignment) ∨ LosesBits alignment

/-! ## The check of `imalloc_body` -/

/-- The two tests of `imalloc_body` refuse what is not a power of two or too small. -/
theorem check_iff {minAlignment alignment : Nat} (hmin : 0 < minAlignment) :
    (alignment < minAlignment ∨ alignment &&& (alignment - 1) ≠ 0) ↔
      Invalid minAlignment alignment := by
  rcases Nat.eq_zero_or_pos alignment with rfl | hpos
  · simp [Invalid, hmin]
  · have htest := Nat.and_sub_one_eq_zero_iff_isPowerOfTwo (Nat.pos_iff_ne_zero.1 hpos)
    rw [Invalid, ne_eq, htest]
    tauto

/-- `imalloc` refuses an alignment on no other path. -/
theorem imalloc_EINVAL_iff {a : Allocator} (hinit : a.initialized = true) {sopts : StaticOpts}
    (hmin : 0 < sopts.minAlignment) (hover : sopts.mayOverflow = false) (dopts : DynamicOpts)
    (result : Nat) :
    (imalloc a sopts dopts result).1 = some .EINVAL ↔
      Invalid sopts.minAlignment dopts.alignment := by
  rw [← check_iff hmin]
  simp only [imalloc, hinit, if_true, imallocBody, computeSizeWithOverflow, hover, Bool.not_false,
    Bool.false_eq_true, if_false]
  split
  · simp_all
  · rename_i hcheck
    refine iff_of_false ?_ hcheck
    split
    · simp
    · split <;> simp

/-! ## The rewriting -/

theorem ctz_two_pow_mul {t o : Nat} (ht : t < 64) (ho : o % 2 = 1) : ctz (2 ^ t * o) = t := by
  have hfind : (List.range 64).find? (2 ^ t * o).testBit = some t := by
    refine List.find?_range_eq_some.2 ⟨?_, by simpa using ht, ?_⟩
    · simp [Nat.testBit_two_pow_mul, ho]
    · intro j hj
      have hnot : ¬ t ≤ j := by omega
      simp [Nat.testBit_two_pow_mul, hnot]
  simp [ctz, hfind]

/-- From bit 12 on nothing is shifted. -/
theorem realign_high {t o : Nat} (ht : t < 64) (ho : o % 2 = 1) (hhigh : 12 ≤ t)
    (hword : 2 ^ t * o < 2 ^ 64) : SHAMBLES_REALIGN (2 ^ t * o) = 2 ^ t * o := by
  have hne : 2 ^ t * o ≠ 0 := Nat.mul_ne_zero (Nat.two_pow_pos t).ne' (by omega)
  have hshift : SHAMBLES_ALIGNMENT_SHIFT - t = 0 := by
    unfold SHAMBLES_ALIGNMENT_SHIFT
    omega
  rw [SHAMBLES_REALIGN, if_pos hne, ctz_two_pow_mul ht ho, hshift, Nat.shiftLeft_zero,
    wrap64_of_lt hword]

/-- Below bit 12 the odd part keeps its 52 low bits. -/
theorem realign_low {t o : Nat} (ho : o % 2 = 1) (hlow : t < 12) :
    SHAMBLES_REALIGN (2 ^ t * o) = 2 ^ 12 * (o % 2 ^ 52) := by
  have hne : 2 ^ t * o ≠ 0 := Nat.mul_ne_zero (Nat.two_pow_pos t).ne' (by omega)
  have hmerge : 2 ^ t * o * 2 ^ (12 - t) = 2 ^ 12 * o := by
    calc
      2 ^ t * o * 2 ^ (12 - t) = 2 ^ t * 2 ^ (12 - t) * o := by ring
      _ = 2 ^ 12 * o := by rw [← Nat.pow_add, Nat.add_sub_cancel' hlow.le]
  rw [SHAMBLES_REALIGN, if_pos hne, ctz_two_pow_mul (by omega) ho, SHAMBLES_ALIGNMENT_SHIFT,
    Nat.shiftLeft_eq, hmerge, wrap64]
  exact Nat.mul_mod_mul_left (2 ^ 12) o (2 ^ 52)

/-- A power of two has no odd part. -/
theorem isPowerOfTwo_two_pow_mul_iff {t o : Nat} (ho : o % 2 = 1) :
    (2 ^ t * o).isPowerOfTwo ↔ o = 1 := by
  constructor
  · rintro ⟨k, hk⟩
    have hdvd : o ∣ 2 ^ k := ⟨2 ^ t, by rw [← hk, Nat.mul_comm]⟩
    obtain ⟨j, _, rfl⟩ := (Nat.dvd_prime_pow Nat.prime_two).1 hdvd
    cases j with
    | zero => rfl
    | succ j => simp [Nat.pow_succ] at ho
  · rintro rfl
    exact ⟨t, by simp⟩

theorem losesBits_iff {t o : Nat} (ht : t < 64) (ho : o % 2 = 1) :
    LosesBits (2 ^ t * o) ↔ t < 12 ∧ o % 2 ^ 52 = 1 ∧ o ≠ 1 := by
  constructor
  · rintro ⟨t', ht', j, hj, heq⟩
    have ho' : (1 + 2 ^ 52 * j) % 2 = 1 := by omega
    -- The lowest bit of both sides is the same one, and so is the odd part.
    obtain rfl : t = t' := by
      rw [← ctz_two_pow_mul ht ho, heq, ctz_two_pow_mul (by omega) ho']
    obtain rfl : o = 1 + 2 ^ 52 * j := Nat.eq_of_mul_eq_mul_left (Nat.two_pow_pos t) heq
    exact ⟨ht', by omega, by omega⟩
  · rintro ⟨hlow, hrest, hne⟩
    refine ⟨t, hlow, o / 2 ^ 52, by omega, ?_⟩
    congr 1
    omega

/-- The rewriting keeps the verdict exactly on the alignments that are not masked. -/
theorem invalid_realign_iff {minAlignment alignment : Nat} (hmin : 0 < minAlignment)
    (hpage : minAlignment ≤ 4096) (hword : alignment < 2 ^ 64) :
    (Invalid minAlignment (SHAMBLES_REALIGN alignment) ↔ Invalid minAlignment alignment) ↔
      ¬ Masked minAlignment alignment := by
  rcases Nat.eq_zero_or_pos alignment with rfl | hpos
  · -- 0 becomes 4096, which no function refuses.
    have hvalid : ¬ Invalid minAlignment (SHAMBLES_REALIGN 0) := by
      have hpow : (4096 : Nat).isPowerOfTwo := ⟨12, rfl⟩
      have hzero : SHAMBLES_REALIGN 0 = 4096 := rfl
      rw [hzero, Invalid, not_or, not_not, not_lt]
      exact ⟨hpow, hpage⟩
    have hrefused : Invalid minAlignment 0 := Or.inr hmin
    simp [Masked, hvalid, hrefused]
  · obtain ⟨t, o, hodd, rfl⟩ := Nat.exists_eq_two_pow_mul_odd hpos.ne'
    have ho : o % 2 = 1 := Nat.odd_iff.1 hodd
    have ht : t < 64 := by
      refine (Nat.pow_lt_pow_iff_right (a := 2) (by decide)).1 (lt_of_le_of_lt ?_ hword)
      exact Nat.le_mul_of_pos_right _ (by omega)
    have hpow := isPowerOfTwo_two_pow_mul_iff (t := t) ho
    have hloses := losesBits_iff ht ho
    rcases Nat.lt_or_ge t 12 with hlow | hhigh
    · have hrest : o % 2 ^ 52 % 2 = 1 := by omega
      have hone : o = 1 → o % 2 ^ 52 = 1 := by omega
      have hraised : Invalid minAlignment (2 ^ 12 * (o % 2 ^ 52)) ↔ o % 2 ^ 52 ≠ 1 := by
        rw [Invalid, isPowerOfTwo_two_pow_mul_iff hrest]
        have hle : ¬ 2 ^ 12 * (o % 2 ^ 52) < minAlignment := by omega
        tauto
      rw [realign_low ho hlow, hraised, Masked, Invalid, hpow, hloses]
      have hne : 2 ^ t * o ≠ 0 := hpos.ne'
      by_cases hrem : o % 2 ^ 52 = 1
      · -- The rewritten alignment is valid; the given one is if it is a power of two, and large.
        by_cases hpower : o = 1 <;> simp [hne, hlow, hrem, hpower, -Nat.reducePow]
      · -- Both are refused.
        have hother : o ≠ 1 := fun h => hrem (hone h)
        simp [hne, hrem, hother, -Nat.reducePow]
    · have hbig : 4096 ≤ 2 ^ t * o :=
        calc
          4096 = 2 ^ 12 * 1 := rfl
          _ ≤ 2 ^ t * o :=
            Nat.mul_le_mul (Nat.pow_le_pow_right (by decide) hhigh) (by omega)
      rw [realign_high ht ho hhigh hword]
      refine iff_of_true Iff.rfl ?_
      rintro (hzero | ⟨_, hsmall⟩ | hlost)
      · exact hpos.ne' hzero
      · omega
      · exact absurd (hloses.1 hlost).1 (by omega)

/-- A valid alignment is raised to that of a page. -/
theorem realign_of_isPowerOfTwo {alignment : Nat} (h : alignment.isPowerOfTwo)
    (hword : alignment < 2 ^ 64) : SHAMBLES_REALIGN alignment = max alignment 4096 := by
  obtain ⟨k, rfl⟩ := h
  have hk : k < 64 := (Nat.pow_lt_pow_iff_right (a := 2) (by decide)).1 hword
  rcases Nat.lt_or_ge k 12 with hlow | hhigh
  · have hle : 2 ^ k ≤ 4096 := Nat.pow_le_pow_right (n := 2) (by decide) hlow.le
    have hraised := realign_low (t := k) (o := 1) rfl hlow
    rw [Nat.mul_one] at hraised
    rw [hraised, max_eq_right hle]
    rfl
  · have hge : 4096 ≤ 2 ^ k := Nat.pow_le_pow_right (n := 2) (by decide) hhigh
    have hkept := realign_high (t := k) (o := 1) hk rfl hhigh (by simpa using hword)
    rw [Nat.mul_one] at hkept
    rw [hkept, max_eq_left hge]

/-! ## The two functions -/

section Functions

variable {a : Allocator} (hinit : a.initialized = true) (sizeThresshold memptr alignment size : Nat)

include hinit

theorem posixMemalign_rejects_iff :
    Rejects (Imalloc.posixMemalign a sizeThresshold memptr alignment size) ↔
      Invalid 8 (Imalloc.realignment sizeThresshold alignment size) :=
  imalloc_EINVAL_iff hinit (by decide) rfl _ _

theorem alignedAlloc_rejects_iff :
    Rejects (Imalloc.alignedAlloc a sizeThresshold alignment size) ↔
      Invalid 1 (Imalloc.realignment sizeThresshold alignment size) :=
  imalloc_EINVAL_iff hinit (by decide) rfl _ _

end Functions

section Realignment

variable {sizeThresshold size : Nat}

theorem realignment_small (h : size < sizeThresshold) (alignment : Nat) :
    Imalloc.realignment sizeThresshold alignment size = alignment :=
  if_neg (Nat.not_le.2 h)

theorem realignment_large (h : sizeThresshold ≤ size) (alignment : Nat) :
    Imalloc.realignment sizeThresshold alignment size = SHAMBLES_REALIGN alignment :=
  if_pos h

end Realignment

/-- Small requests are refused as they should be.  Large ones are exactly for the alignments that
the rewriting does not mask, and a valid alignment is raised to that of a page. -/
theorem realign_preserves_iff {a : Allocator} (hinit : a.initialized = true)
    (sizeThresshold memptr : Nat) {alignment : Nat} (hword : alignment < 2 ^ 64) :
    (∀ size < sizeThresshold,
      (Rejects (Imalloc.posixMemalign a sizeThresshold memptr alignment size) ↔
        Invalid 8 alignment) ∧
      (Rejects (Imalloc.alignedAlloc a sizeThresshold alignment size) ↔ Invalid 1 alignment)) ∧
    (∀ size, sizeThresshold ≤ size →
      ((Rejects (Imalloc.posixMemalign a sizeThresshold memptr alignment size) ↔
        Invalid 8 alignment) ↔ ¬ Masked 8 alignment) ∧
      ((Rejects (Imalloc.alignedAlloc a sizeThresshold alignment size) ↔ Invalid 1 alignment) ↔
        ¬ Masked 1 alignment)) ∧
    (alignment.isPowerOfTwo → SHAMBLES_REALIGN alignment = max alignment 4096) := by
  refine ⟨?_, ?_, fun hpow => realign_of_isPowerOfTwo hpow hword⟩
  · intro size hsmall
    rw [posixMemalign_rejects_iff hinit, alignedAlloc_rejects_iff hinit,
      realignment_small hsmall]
    exact ⟨Iff.rfl, Iff.rfl⟩
  · intro size hlarge
    rw [posixMemalign_rejects_iff hinit, alignedAlloc_rejects_iff hinit,
      realignment_large hlarge]
    exact ⟨invalid_realign_iff (by decide) (by decide) hword,
      invalid_realign_iff (by decide) (by decide) hword⟩

/-- An allocator that has a place for everything. -/
def ample : Allocator where
  initialized := true
  usize := fun size _ => some size
  allocate := fun _ _ => 0x700000
  fastpath := fun _ => 0

theorem realign_preserves_cache_line :
    SHAMBLES_REALIGN 64 = 4096 ∧
      (Rejects (Imalloc.alignedAlloc ample 0x10000 64 0x20000) ↔ Invalid 1 64) := by
  have h := realign_preserves_iff (a := ample) rfl 0x10000 0 (show 64 < 2 ^ 64 by decide)
  refine ⟨h.2.2 ⟨6, rfl⟩, ((h.2.1 0x20000 (by decide)).2).2 ?_⟩
  rintro (hzero | ⟨_, hsmall⟩ | ⟨t, _, j, hj, heq⟩)
  · cases hzero
  · exact absurd hsmall (by decide)
  · have hpow := Nat.two_pow_pos t
    nlinarith

/-- 0, a power of two that is too small, and a number that loses its high bit, each refused for a
small request and accepted for a large one. -/
theorem realign_masks :
    (Rejects (Imalloc.alignedAlloc ample 0x10000 0 0x100) ∧
      ¬ Rejects (Imalloc.alignedAlloc ample 0x10000 0 0x10000)) ∧
    (Rejects (Imalloc.posixMemalign ample 0x10000 0 4 0x100) ∧
      ¬ Rejects (Imalloc.posixMemalign ample 0x10000 0 4 0x10000)) ∧
    (Rejects (Imalloc.alignedAlloc ample 0x10000 0x8000000000000001 0x100) ∧
      ¬ Rejects (Imalloc.alignedAlloc ample 0x10000 0x8000000000000001 0x10000)) := by
  decide

end Jemalloc
end Shambles
