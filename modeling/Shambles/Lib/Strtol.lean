import Mathlib.Tactic

/-!
# Strtol — reading a C integer from a string

`strtol(s, NULL, 0)` of the C library and the conversion of its result to `unsigned long`, for
64-bit `long`:

* white space and one sign are skipped;
* `0x` before a hexadecimal digit selects base 16, any other leading `0` base 8, else base 10;
* the digits are read up to the first character that is none, and a value outside `long` is
  replaced by the nearest `long`.
-/

namespace Shambles
namespace Strtol

def LONG_MAX : Int :=
  2 ^ 63 - 1

def LONG_MIN : Int :=
  -2 ^ 63

/-! ## Reading -/

def isSpace (c : Char) : Bool :=
  c = ' ' || ('\t' ≤ c && c ≤ '\r')

def digitValue (c : Char) : Option Nat :=
  if '0' ≤ c ∧ c ≤ '9' then
    some (c.toNat - '0'.toNat)
  else if 'a' ≤ c ∧ c ≤ 'z' then
    some (c.toNat - 'a'.toNat + 10)
  else if 'A' ≤ c ∧ c ≤ 'Z' then
    some (c.toNat - 'A'.toNat + 10)
  else
    none

def isDigit (base : Nat) (c : Char) : Bool :=
  match digitValue c with
  | some d => d < base
  | none => false

/-- The value of the leading digits, after digits of value `acc`. -/
def digits (base : Nat) : List Char → Nat → Nat
  | [], acc => acc
  | c :: cs, acc =>
      match digitValue c with
      | some d => if d < base then digits base cs (base * acc + d) else acc
      | none => acc

/-- The digits behind the sign, in the base their beginning selects. -/
def magnitude : List Char → Nat
  | '0' :: x :: c :: cs =>
      if (x = 'x' ∨ x = 'X') ∧ isDigit 16 c then digits 16 (c :: cs) 0 else digits 8 (x :: c :: cs) 0
  | '0' :: cs => digits 8 cs 0
  | cs => digits 10 cs 0

def strtol (s : String) : Int :=
  match s.toList.dropWhile isSpace with
  | '-' :: cs => max LONG_MIN (-(magnitude cs : Int))
  | '+' :: cs => min LONG_MAX (magnitude cs)
  | cs => min LONG_MAX (magnitude cs)

example : strtol " 0x10000" = 65536 := by decide

example : strtol "-010k" = -8 := by decide

theorem strtol_bounds (s : String) : LONG_MIN ≤ strtol s ∧ strtol s ≤ LONG_MAX := by
  unfold strtol LONG_MIN LONG_MAX
  split
  · omega
  · omega
  · omega

/-! ## Conversion -/

/-- The conversion of `long` to `unsigned long`. -/
def toULong (z : Int) : Nat :=
  (z % 2 ^ 64).toNat

theorem toULong_of_nonneg {z : Int} (h : 0 ≤ z) (hmax : z ≤ LONG_MAX) : (toULong z : Int) = z := by
  unfold LONG_MAX at hmax
  unfold toULong
  omega

/-- A negative `long` becomes a number of which at least the top bit is set. -/
theorem le_toULong_of_neg {z : Int} (h : z < 0) (hmin : LONG_MIN ≤ z) : 2 ^ 63 ≤ toULong z := by
  unfold LONG_MIN at hmin
  unfold toULong
  omega

end Strtol
end Shambles
