import Mathlib.Algebra.Order.Floor.Semifield
import Shambles.StaticFractional.Agreement

/-!
# Split — how exact `fastSize` is

`fastSize` should be the product of a size and a fixed-point fraction, rounded half up
(`nearest`).  The product is formed behind a shift by `PAGE_SHIFT`, so only 52 of its bits are
kept.

* `fastSize_exact_iff`: the result is the rounded product exactly when the product of size and
  fraction stays below `2^52`, and there it grows with both arguments.
* `fastSize_wraps`: half of 8 GiB comes out as nothing.
-/

namespace Shambles
namespace StaticFractional

/-- `size` times the fraction `f / 2^20`, rounded half up. -/
def nearest (size f : Nat) : Nat :=
  ⌊(size * f : ℚ) / 2 ^ FRACTION_SHIFT + 1 / 2⌋₊

/-- The same with half a unit added before the last 20 bits are cut off. -/
theorem nearest_eq (size f : Nat) : nearest size f = (size * f + 2 ^ 19) / 2 ^ 20 := by
  have hsum : (size * f : ℚ) / 2 ^ FRACTION_SHIFT + 1 / 2 =
      ((size * f + 2 ^ 19 : Nat) : ℚ) / ((2 ^ 20 : Nat) : ℚ) := by
    push_cast [FRACTION_SHIFT]
    ring
  rw [nearest, hsum, Nat.floor_div_eq_div]

/-- A lost multiple of `2^52` is a lost multiple of `2^32` in the result. -/
theorem nearest_eq_fastSize_add (size f : Nat) :
    nearest size f = fastSize size f + 2 ^ 32 * (size * f / 2 ^ 52) := by
  rw [nearest_eq, fastSize_eq]
  generalize size * f = product
  omega

theorem fastSize_eq_nearest_iff (size f : Nat) :
    fastSize size f = nearest size f ↔ size * f < 2 ^ 52 := by
  rw [nearest_eq_fastSize_add]
  constructor
  · intro hexact
    have hlost : 2 ^ 32 * (size * f / 2 ^ 52) = 0 := by omega
    have hquotient : size * f / 2 ^ 52 = 0 := by simpa using hlost
    exact (Nat.div_eq_zero_iff_lt (by decide)).1 hquotient
  · intro hsmall
    rw [Nat.div_eq_of_lt hsmall, Nat.mul_zero, Nat.add_zero]

theorem nearest_mono {size size' f f' : Nat} (hsize : size ≤ size') (hf : f ≤ f') :
    nearest size f ≤ nearest size' f' := by
  have hproduct : size * f ≤ size' * f' := Nat.mul_le_mul hsize hf
  rw [nearest_eq, nearest_eq]
  exact Nat.div_le_div_right (Nat.add_le_add_right hproduct _)

/-- `fastSize` is exact where the product fits, and only there; and it is monotone there. -/
theorem fastSize_exact_iff (size f : Nat) :
    (fastSize size f = nearest size f ↔ size * f < 2 ^ 52) ∧
      ∀ size' f', size ≤ size' → f ≤ f' → size' * f' < 2 ^ 52 →
        fastSize size f ≤ fastSize size' f' := by
  refine ⟨fastSize_eq_nearest_iff size f, ?_⟩
  intro size' f' hsize hf hsmall'
  have hsmall : size * f < 2 ^ 52 := (Nat.mul_le_mul hsize hf).trans_lt hsmall'
  calc
    fastSize size f = nearest size f := (fastSize_eq_nearest_iff size f).2 hsmall
    _ ≤ nearest size' f' := nearest_mono hsize hf
    _ = fastSize size' f' := ((fastSize_eq_nearest_iff size' f').2 hsmall').symm

/-- Half of 8 GiB: the product is `2^52` and nothing is left of it, although one byte less gives
4 GiB. -/
theorem fastSize_wraps :
    2 ^ 33 < 2 ^ 39 ∧ 2 ^ 19 ≤ 2 ^ FRACTION_SHIFT ∧
      fastSize (2 ^ 33) (2 ^ 19) = 0 ∧ nearest (2 ^ 33) (2 ^ 19) = 2 ^ 32 ∧
      fastSize (2 ^ 33 - 1) (2 ^ 19) = 2 ^ 32 := by
  refine ⟨by decide, by decide, by decide, ?_, by decide⟩
  rw [nearest_eq]
  decide

end StaticFractional
end Shambles
