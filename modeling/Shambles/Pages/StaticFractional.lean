import Shambles.Pages.View
import Shambles.StaticFractional.Agreement

/-!
# StaticFractional — where a split starts

The second part of a split allocation starts behind `fastSize` bytes, a number that is rounded to
bytes and not to pages.  It lies on a page exactly when the product of size and fraction comes
close enough to a multiple of `2^32`, which is one page times the fraction one.
-/

namespace Shambles
namespace StaticFractional

open Jemalloc Plugins Structures

/-- The product, rounded to 20 bits, is a number of pages. -/
def WholePages (size f : Nat) : Prop :=
  (size * f + 2 ^ 19) % 2 ^ 32 < 2 ^ 20

instance (size f : Nat) : Decidable (WholePages size f) :=
  inferInstanceAs (Decidable (_ < _))

theorem page_dvd_fastSize_iff (size f : Nat) :
    PAGE_SIZE ∣ fastSize size f ↔ WholePages size f := by
  have hmod : (size * f % 2 ^ 52 + 2 ^ 19) % 2 ^ 32 = (size * f + 2 ^ 19) % 2 ^ 32 := by omega
  rw [fastSize_eq, WholePages, ← hmod, PAGE_SIZE]
  generalize size * f % 2 ^ 52 + 2 ^ 19 = n
  omega

/-- A plan is carried out on pages: it does not split, or it splits after whole pages. -/
theorem plan_on_pages_iff (P : Settings) {out size f : Nat} (hout : PAGE_SIZE ∣ out)
    (hend : out + size < 2 ^ 64) :
    (∀ b ∈ layOut out (plan P size f), PAGE_SIZE ∣ b.1.start) ↔
      f = 0 ∨ 2 ^ FRACTION_SHIFT ≤ f ∨ WholePages size f := by
  by_cases hzero : f = 0
  · simp [plan, hzero, layOut, hout]
  · by_cases hone : 2 ^ FRACTION_SHIFT ≤ f
    · simp [plan, hzero, hone, layOut, hout]
    · -- the first part starts with the allocation, the second one behind the first
      have hle : fastSize size f ≤ size := fastSize_le (not_le.1 hone)
      have hwrap : wrap64 (out + fastSize size f) = out + fastSize size f :=
        wrap64_of_lt (by omega)
      have hsplit : PAGE_SIZE ∣ out + fastSize size f ↔ WholePages size f :=
        (Nat.dvd_add_right hout).trans (page_dvd_fastSize_iff size f)
      simp [plan, hzero, hone, layOut, hout, hwrap, hsplit]

/-! ## Runs -/

/-- The condition on a large allocation with `n` large ones before it. -/
def SplitsOnPage (P : Settings) (n : Nat) (call : Call) : Prop :=
  ∀ f, P.fractionAt (toInt n) = some f →
    f = 0 ∨ 2 ^ FRACTION_SHIFT ≤ f ∨ WholePages call.event.size f

section Plain

variable {P : Settings} {calls : List Call} {t : PlainState}

/-- The plain build starts all its bindings on pages exactly when no large allocation is split
inside a page. -/
theorem plain_on_pages_iff (hrun : Run (plainBuild P) PlainState.init calls t)
    (hout : ∀ call ∈ calls, P.Large call → PAGE_SIZE ∣ call.event.outPtr) :
    (∀ es ∈ t.trace, StartsOnPages es) ↔
      ∀ (i : Nat) (call : Call), calls[i]? = some call → P.Large call →
        SplitsOnPage P (P.largeCount (calls.take i)) call := by
  have hinv := PlainInv.run hrun
  constructor
  · intro hpages i call hcall hlarge f hf
    have hlt : i < t.trace.length := by
      rw [hinv.length]
      exact (List.getElem?_eq_some_iff.1 hcall).1
    have hes : t.trace[i]? = some t.trace[i] := List.getElem?_eq_getElem hlt
    have hcarried := hinv.carried i call _ hcall hes
    rw [Carried, if_pos hlarge] at hcarried
    rcases hcarried with ⟨hend, f', hf', hbindings⟩
    obtain rfl : f' = f := Option.some.inj (hf'.symm.trans hf)
    have hstarts := hpages _ (List.mem_of_getElem? hes)
    rw [StartsOnPages, hbindings] at hstarts
    exact (plan_on_pages_iff P (hout call (List.mem_of_getElem? hcall) hlarge) hend).1 hstarts
  · intro hsplits es hes
    rcases List.getElem?_of_mem hes with ⟨i, hi⟩
    have hlt : i < calls.length := by
      rw [← hinv.length]
      exact (List.getElem?_eq_some_iff.1 hi).1
    have hcall : calls[i]? = some calls[i] := List.getElem?_eq_getElem hlt
    have hcarried := hinv.carried i _ es hcall hi
    by_cases hlarge : P.Large calls[i]
    · rw [Carried, if_pos hlarge] at hcarried
      rcases hcarried with ⟨hend, f, hf, hbindings⟩
      have hcond := hsplits i _ hcall hlarge f hf
      rw [StartsOnPages, hbindings]
      exact (plan_on_pages_iff P (hout _ (List.mem_of_getElem? hcall) hlarge) hend).2 hcond
    · rw [Carried, if_neg hlarge] at hcarried
      simp [StartsOnPages, hcarried]

end Plain

/-- The logging build issues the same bindings. -/
theorem logging_on_pages_iff {P : Settings} {g : Geometry} {calls : List Call}
    {s : LoggingState g} (hrun : Run (loggingBuild P g) (LoggingState.init g) calls s)
    (hout : ∀ call ∈ calls, P.Large call → PAGE_SIZE ∣ call.event.outPtr) :
    (∀ es ∈ s.trace, StartsOnPages es) ↔
      ∀ (i : Nat) (call : Call), calls[i]? = some call → P.Large call →
        SplitsOnPage P (P.largeCount (calls.take i)) call := by
  rcases (Inv.run hrun).plain with ⟨t, hplain, -, hbindings⟩
  have hall : ∀ trace : List (List Effect), (∀ es ∈ trace, StartsOnPages es) ↔
      ∀ bs ∈ trace.map bindings, ∀ b ∈ bs, PAGE_SIZE ∣ b.1.start := by
    intro trace
    simp [StartsOnPages]
  rw [← plain_on_pages_iff hplain hout, hall, hall, hbindings]

end StaticFractional
end Shambles
